import ModuleBuild.Proofs.Path.Normal
import ModuleBuild.Proofs.Path.Siblings

/-!
# The files of an object

An object has three files: itself, its dependency descriptor and its listing. Their names differ from each other in the
suffix that was put on last, and this is the suffix of no source. So a path tells of which object it is a file, and
which one (`eq_of_sibling`), and none of them is a source, however either path is spelled
(`IsFile.normalize_ne`, `IsFile.follow_ne`).
-/

namespace ModuleBuild

namespace Segment

/-- A suffix without dots that is put on a name is its suffix. -/
theorem suffix_withSuffix (s : Segment) {x : Suffix} (hx : '.' ∉ x.extension.toList) :
    (s.withSuffix x).suffix = x.text := by
  have hstem : (splitSuffix s.text.toList).1 ≠ [] := splitSuffix_fst_ne_nil (by simpa using s.isValid.1)
  have hsplit := splitSuffix_append_dot hstem (by simpa using x.isValid.1) hx
  simp [suffix, suffixOf, withSuffix, Suffix.text, hsplit]

end Segment

/-- The suffixes of the files of an object. -/
def Suffix.ofFiles : List Suffix := [.object, .dependencies, .listing]

namespace Suffix

variable {x : Suffix}

theorem text_of_mem_ofFiles (h : x ∈ ofFiles) : ∃ c, c ≠ '.' ∧ x.text.toList = ['.', c] := by
  simp only [ofFiles, List.mem_cons, List.not_mem_nil, or_false] at h
  rcases h with rfl | rfl | rfl
  exacts [⟨'o', by decide, text_object⟩, ⟨'P', by decide, text_dependencies⟩, ⟨'d', by decide, text_listing⟩]

theorem notMem_extension (h : x ∈ ofFiles) : '.' ∉ x.extension.toList := by
  simp only [ofFiles, List.mem_cons, List.not_mem_nil, or_false] at h
  rcases h with rfl | rfl | rfl <;> decide

theorem text_injective : Function.Injective text := by
  rintro ⟨e, he⟩ ⟨e', he'⟩ h
  have htext := congrArg String.toList h
  simp only [text, String.toList_append, List.append_cancel_left_eq] at htext
  obtain rfl := String.toList_inj.mp htext
  rfl

/-- No source has one of these suffixes. -/
theorem ofSuffix?_eq_none (h : x ∈ ofFiles) : Language.ofSuffix? x.text = none := by
  simp only [ofFiles, List.mem_cons, List.not_mem_nil, or_false] at h
  rcases h with rfl | rfl | rfl <;> decide +kernel

end Suffix

namespace Path

variable {p : Path} {s : Segment}

/-- A name at the end of a path is at the end of its normal form. -/
theorem name?_normalize (h : p.name? = some s) (hs : s ≠ .up) : p.normalize.name? = some s := by
  obtain ⟨ss, hsegments⟩ := List.getLast?_eq_some_iff.mp h
  have hp : p = ⟨p.anchor, ss ++ [s]⟩ := by rw [← hsegments]
  rw [hp, normalize_append (by simpa using hs), name?, List.getLast?_concat]

/-- A suffix is put on the same name behind a directory. -/
theorem withSuffix?_join {p q q' : Path} {x : Suffix} (h : q.withSuffix? x = some q') :
    (p / q).withSuffix? x = some (p / q') := by
  obtain ⟨s, hs, rfl⟩ := Option.map_eq_some_iff.mp h
  have hne := segments_ne_nil_of_name? hs
  rw [withSuffix?, name?_join hne, hs, Option.map_some, Option.some.injEq]
  cases hq : q.isAbsolute with
  | true =>
    have hq' : (⟨q.anchor, q.segments.dropLast ++ [s.withSuffix x]⟩ : Path).isAbsolute = true := hq
    rw [join_of_isAbsolute hq, join_of_isAbsolute hq']
  | false =>
    have hq' : (⟨q.anchor, q.segments.dropLast ++ [s.withSuffix x]⟩ : Path).isAbsolute = false := hq
    rw [join_of_not_isAbsolute hq, join_of_not_isAbsolute hq', List.dropLast_append_of_ne_nil hne, List.append_assoc]

/-- A path whose suffix is replaced has another name in the same directory. -/
theorem name?_of_withSuffix? {q q' : Path} {s : Segment} {x : Suffix} {c : Char} (h : q.withSuffix? x = some q')
    (hname : q.name? = some s) (hx : x.text.toList = ['.', c]) (hc : c ≠ '.') :
    q'.name? = some (s.withSuffix x) ∧ s.withSuffix x ≠ .up ∧ q'.parent = q.parent := by
  rw [withSuffix?, hname, Option.map_some, Option.some.injEq] at h
  subst h
  refine ⟨?_, Segment.ne_up_of_endsIn (s.endsIn_withSuffix x) hx hc, ?_⟩
  · rw [name?, List.getLast?_concat]
  · rw [parent, List.dropLast_concat, parent]

end Path

/-- A source that is in a language has a name. -/
theorem Language.exists_name_of_ofSource? {p : Path} {l : Language} (h : ofSource? p = some l) :
    ∃ s, p.name? = some s ∧ s ≠ .up ∧ ofSuffix? s.suffix = some l := by
  unfold ofSource? Path.suffix at h
  cases hname : p.name? with
  | none =>
    have hnone : ofSuffix? "" = none := by decide +kernel
    rw [hname, Option.elim_none, hnone] at h
    exact nomatch h
  | some s =>
    rw [hname] at h
    refine ⟨s, rfl, ?_, h⟩
    rintro rfl
    have hnone : ofSuffix? Segment.up.suffix = none := by decide +kernel
    rw [Option.elim_some, hnone] at h
    exact nomatch h

namespace ObjectRecord

/-- The path is one of the files of the object. -/
def IsFile (o : ObjectRecord) (q : Path) : Prop := ∃ x ∈ Suffix.ofFiles, o.sibling x = .ok q

variable {o o' : ObjectRecord} {q : Path}

/-- The files of an object are itself, its descriptor and its listing. -/
theorem IsObject.isFile_iff (h : o.IsObject) :
    o.IsFile q ↔ q = o.path ∨ o.dependencies = .ok q ∨ o.listing = .ok q := by
  simp [IsFile, Suffix.ofFiles, h.sibling_object, dependencies, listing, eq_comm]

theorem IsObject.isFile_path (h : o.IsObject) : o.IsFile o.path := h.isFile_iff.mpr (.inl rfl)

/-- A path that is a file of two objects is the same file of the same object. -/
theorem eq_of_sibling {x x' : Suffix} (h : o.IsObject) (h' : o'.IsObject) (hx : x ∈ Suffix.ofFiles)
    (hx' : x' ∈ Suffix.ofFiles) (hq : o.sibling x = .ok q) (hq' : o'.sibling x' = .ok q) :
    x = x' ∧ o.path = o'.path := by
  obtain ⟨s, hname, hnew, hq⟩ := sibling_eq_ok hq
  obtain ⟨s', hname', hnew', hq'⟩ := sibling_eq_ok hq'
  have hlast : s.withSuffix x = s'.withSuffix x' := Option.some.inj (hnew.symm.trans hnew')
  obtain rfl : x = x' := by
    apply Suffix.text_injective
    rw [← Segment.suffix_withSuffix s (Suffix.notMem_extension hx), hlast,
      Segment.suffix_withSuffix s' (Suffix.notMem_extension hx')]
  -- the suffix of objects is put back
  have hobject {o : ObjectRecord} (h : o.IsObject) {s : Segment} (hname : o.path.name? = some s) :
      o.path = ⟨o.path.anchor, o.path.segments.dropLast ++ [s.withSuffix .object]⟩ := by
    obtain ⟨s', hs', -, hpath⟩ := sibling_eq_ok h.sibling_object
    rwa [Option.some.inj (hs'.symm.trans hname)] at hpath
  obtain ⟨hanchor, hsegments⟩ := Path.mk.inj (hq.symm.trans hq')
  obtain ⟨hdirectory, -⟩ := List.append_inj' hsegments rfl
  refine ⟨rfl, ?_⟩
  rw [hobject h hname, hobject h' hname', hanchor, hdirectory, Segment.withSuffix_congr hlast]

namespace IsFile

variable (h : o.IsFile q)

include h

theorem parent_eq : q.parent = o.path.parent := by
  obtain ⟨x, -, hq⟩ := h
  have hparent : (Path.here / q).parent = (Path.here / o.path).parent := parent_sibling hq
  rwa [Path.here_join, Path.here_join] at hparent

/-- A file of an object bears a name with one of the suffixes. -/
theorem exists_name : ∃ (s : Segment) (x : Suffix),
    q.name? = some (s.withSuffix x) ∧ x ∈ Suffix.ofFiles ∧ s.withSuffix x ≠ .up := by
  obtain ⟨x, hx, hq⟩ := h
  obtain ⟨s, -, hname, -⟩ := sibling_eq_ok hq
  obtain ⟨c, hc, htext⟩ := Suffix.text_of_mem_ofFiles hx
  exact ⟨s, x, hname, hx, Segment.ne_up_of_endsIn (s.endsIn_withSuffix x) htext hc⟩

/-- A file of an object does not bear the name of a source. -/
theorem name?_ne {p : Path} {l : Language} (hp : Language.ofSource? p = some l) : q.name? ≠ p.name? := by
  obtain ⟨s, x, hname, hx, -⟩ := h.exists_name
  obtain ⟨s', hname', -, hlanguage⟩ := Language.exists_name_of_ofSource? hp
  intro heq
  rw [hname, hname', Option.some.injEq] at heq
  rw [← heq, Segment.suffix_withSuffix s (Suffix.notMem_extension hx), Suffix.ofSuffix?_eq_none hx] at hlanguage
  exact nomatch hlanguage

/-- However it is spelled, no file of an object is a source. -/
theorem normalize_ne {p : Path} {l : Language} (hp : Language.ofSource? p = some l) : q.normalize ≠ p.normalize := by
  obtain ⟨s, x, hname, -, hs⟩ := h.exists_name
  obtain ⟨s', hname', hs', -⟩ := Language.exists_name_of_ofSource? hp
  intro heq
  have hnames := congrArg Path.name? heq
  rw [Path.name?_normalize hname hs, Path.name?_normalize hname' hs', ← hname, ← hname'] at hnames
  exact h.name?_ne hp hnames

/-- Whatever both are put under, no file of an object leads where a source does. -/
theorem follow_ne {p : Path} {l : Language} (hp : Language.ofSource? p = some l) (directory : Path) (place : Location) :
    place.follow (directory / q) ≠ place.follow (directory / p) := by
  obtain ⟨s, x, hname, -, hs⟩ := h.exists_name
  obtain ⟨s', hname', hs', -⟩ := Language.exists_name_of_ofSource? hp
  have hjoin : (directory / q).name? = some (s.withSuffix x) :=
    (Path.name?_join (Path.segments_ne_nil_of_name? hname)).trans hname
  have hjoin' : (directory / p).name? = some s' := (Path.name?_join (Path.segments_ne_nil_of_name? hname')).trans hname'
  intro heq
  have hheads := congrArg List.head? heq
  rw [place.head?_follow hs hjoin, place.head?_follow hs' hjoin', ← hname, ← hname'] at hheads
  exact h.name?_ne hp hheads

end IsFile

end ObjectRecord

end ModuleBuild
