import ModuleBuild.Path.Basic

/-!
# Suffixes

The suffix of a name is what stands from its last dot on. A dot that opens the name or ends it starts
no suffix.
-/

namespace ModuleBuild

/-- Cut a name into its stem and its suffix. -/
def splitSuffix (name : List Char) : List Char × List Char :=
  let tail := name.reverse.takeWhile (· != '.')
  match name.reverse.dropWhile (· != '.') with
  | _ :: c :: cs =>
    if tail.isEmpty then (name, []) else ((c :: cs).reverse, '.' :: tail.reverse)
  | _ => (name, [])

/-- The suffix of a name, with its dot; empty if it has none. -/
def suffixOf (name : String) : String := .ofList (splitSuffix name.toList).2

/-- A suffix to be put on names, given without its dot. -/
structure Suffix where
  extension : String
  isValid : extension ≠ "" ∧ '/' ∉ extension.toList

namespace Suffix

/-- The suffix as it stands in a name. -/
def text (x : Suffix) : String := "." ++ x.extension

/-- The suffix of objects. -/
def object : Suffix := ⟨"o", by decide +kernel⟩

/-- The suffix of the listings that compilers leave. -/
def listing : Suffix := ⟨"d", by decide +kernel⟩

/-- The suffix of dependency descriptors. -/
def dependencies : Suffix := ⟨"P", by decide +kernel⟩

end Suffix

/-- Nothing but the suffix is cut off. -/
theorem splitSuffix_append (name : List Char) :
    (splitSuffix name).1 ++ (splitSuffix name).2 = name := by
  unfold splitSuffix
  split
  · rename_i d c cs h
    dsimp only
    split
    · simp
    · have key := List.takeWhile_append_dropWhile (p := (· != '.')) (l := name.reverse)
      have hd : d = '.' := by
        have := List.head_dropWhile_not (p := (· != '.')) (l := name.reverse) (by simp [h])
        simpa [h] using this
      rw [h, hd] at key
      have := congrArg List.reverse key
      simp only [List.reverse_append, List.reverse_reverse] at this
      simpa using this
  · simp

namespace Segment

/-- The suffix of a segment. -/
def suffix (s : Segment) : String := suffixOf s.text

/-- The segment with its suffix, if any, replaced. -/
def withSuffix (s : Segment) (x : Suffix) : Segment where
  text := .ofList ((splitSuffix s.text.toList).1 ++ x.text.toList)
  isValid := by
    obtain ⟨hx, hs⟩ := x.isValid
    have hlen : x.extension.toList ≠ [] := by simpa using hx
    have hmem : '/' ∉ (splitSuffix s.text.toList).1 := fun h ↦
      s.isValid.2.2 (by rw [← splitSuffix_append s.text.toList]; exact List.mem_append_left _ h)
    refine ⟨?_, ?_, ?_⟩
    · intro h
      have := congrArg String.toList h
      simp [Suffix.text] at this
    · intro h
      have := congrArg String.toList h
      simp only [String.toList_ofList, Suffix.text, String.toList_append] at this
      have := congrArg List.length this
      have := List.length_pos_iff.mpr hlen
      simp at *
      omega
    · simp [Suffix.text, hmem, hs]

end Segment

namespace Path

/-- The suffix of a path's last segment. -/
def suffix (p : Path) : String := p.name?.elim "" Segment.suffix

/-- The path with the suffix of its last segment replaced; none if there is no segment. -/
def withSuffix? (p : Path) (x : Suffix) : Option Path :=
  p.name?.map fun s ↦ ⟨p.anchor, p.segments.dropLast ++ [s.withSuffix x]⟩

/-- Only a path without segments takes no suffix. -/
theorem withSuffix?_eq_none_iff {p : Path} {x : Suffix} :
    p.withSuffix? x = none ↔ p.segments = [] := by
  simp [withSuffix?, name?]

end Path

end ModuleBuild
