import ModuleBuild.Path.Suffix

/-!
# Names and their suffixes

A name that bears a suffix has it behind a stem that is not empty, so that a suffix without dots that is put
on a name can be told again, and replaced (`withSuffix_withSuffix`).
-/

namespace ModuleBuild

/-- The stem of a name is not empty. -/
theorem splitSuffix_fst_ne_nil {name : List Char} (h : name ≠ []) : (splitSuffix name).1 ≠ [] := by
  unfold splitSuffix
  split
  · dsimp only
    split
    · exact h
    · simp
  · exact h

/-- What stands behind the last dot is the suffix, unless the dot opens the name. -/
theorem splitSuffix_append_dot {stem tail : List Char} (hstem : stem ≠ []) (htail : tail ≠ [])
    (hdot : '.' ∉ tail) : splitSuffix (stem ++ '.' :: tail) = (stem, '.' :: tail) := by
  have hne : ∀ c ∈ tail.reverse, (c != '.') = true := by
    intro c hc
    simp only [bne_iff_ne, ne_eq]
    rintro rfl
    exact hdot (List.mem_reverse.mp hc)
  have hreverse : (stem ++ '.' :: tail).reverse = tail.reverse ++ '.' :: stem.reverse := by simp
  obtain ⟨c, cs, hcs⟩ := List.exists_cons_of_ne_nil (by simpa using hstem : stem.reverse ≠ [])
  have hdrop : (stem ++ '.' :: tail).reverse.dropWhile (· != '.') = '.' :: c :: cs := by
    rw [hreverse, List.dropWhile_append_of_pos hne, hcs]
    simp
  have htake : (stem ++ '.' :: tail).reverse.takeWhile (· != '.') = tail.reverse := by
    rw [hreverse, List.takeWhile_append_of_pos hne]
    simp
  have hback : cs.reverse ++ [c] = stem := by
    simpa using (congrArg List.reverse hcs).symm
  simp only [splitSuffix, hdrop, htake]
  simp [htail, hback]

namespace Segment

/-- The name ends in a suffix. -/
def EndsIn (s : Segment) (x : Suffix) : Prop := x.text.toList <:+ s.text.toList

instance (s : Segment) (x : Suffix) : Decidable (s.EndsIn x) := by
  unfold EndsIn
  infer_instance

theorem endsIn_withSuffix (s : Segment) (x : Suffix) : (s.withSuffix x).EndsIn x := by
  simp [EndsIn, withSuffix]

/-- A name ends in one suffix of one character only. -/
theorem EndsIn.unique {s : Segment} {x y : Suffix} {c d : Char} (hx : s.EndsIn x) (hy : s.EndsIn y)
    (hc : x.text.toList = ['.', c]) (hd : y.text.toList = ['.', d]) : c = d := by
  rw [EndsIn, hc] at hx
  rw [EndsIn, hd] at hy
  have hlast {c : Char} (h : ['.', c] <:+ s.text.toList) : s.text.toList.getLast? = some c := by
    obtain ⟨cs, h⟩ := h
    rw [← h]
    simp
  exact Option.some.inj ((hlast hx).symm.trans (hlast hy))

/-- A suffix without dots that is put on a name can be replaced. -/
theorem withSuffix_withSuffix (s : Segment) {x : Suffix} (y : Suffix)
    (hx : '.' ∉ x.extension.toList) : (s.withSuffix x).withSuffix y = s.withSuffix y := by
  have hstem : (splitSuffix s.text.toList).1 ≠ [] :=
    splitSuffix_fst_ne_nil (by simpa using s.isValid.1)
  have hsplit := splitSuffix_append_dot hstem (by simpa using x.isValid.1) hx
  refine ext ?_
  simp [withSuffix, Suffix.text, hsplit]

/-- Names with one suffix are told by their stems, whatever the suffix. -/
theorem withSuffix_congr {s s' : Segment} {x : Suffix} (h : s.withSuffix x = s'.withSuffix x)
    (y : Suffix) : s.withSuffix y = s'.withSuffix y := by
  have htext := congrArg (fun s : Segment ↦ s.text.toList) h
  have hstem : (splitSuffix s.text.toList).1 = (splitSuffix s'.text.toList).1 := by
    simpa [withSuffix] using htext
  refine ext ?_
  simp [withSuffix, hstem]

theorem ne_up_of_endsIn {s : Segment} {x : Suffix} {c : Char} (h : s.EndsIn x)
    (hc : x.text.toList = ['.', c]) (hdot : c ≠ '.') : s ≠ .up := by
  rintro rfl
  have hup : Segment.up.text.toList = ['.', '.'] := by decide +kernel
  rw [EndsIn, hc, hup] at h
  have heq := h.eq_of_length rfl
  simp only [List.cons.injEq, and_true, true_and] at heq
  exact hdot heq

end Segment

namespace Suffix

theorem text_object : object.text.toList = ['.', 'o'] := by decide +kernel

theorem text_listing : listing.text.toList = ['.', 'd'] := by decide +kernel

theorem text_dependencies : dependencies.text.toList = ['.', 'P'] := by decide +kernel

end Suffix

end ModuleBuild
