import ModuleBuild.Path.Basic

/-!
# Locations

A location is a place in the file tree, counted from the root. Following a segment leads one step down,
or, at a double dot, one step up; above the root there is only the root.
-/

namespace ModuleBuild

/-- The names that lead to a place in the file tree, innermost first. -/
abbrev Location := List Segment

namespace Location

/-- Follow one segment, whatever the tree holds. -/
def step (l : Location) (s : Segment) : Location := if s = .up then l.tail else s :: l

/-- Where a path leads from a location, whatever the tree holds. -/
def follow (l : Location) (p : Path) : Location :=
  p.segments.foldl step (if p.isAbsolute then [] else l)

@[simp] theorem step_up (l : Location) : l.step .up = l.tail := by simp [step]

/-- A path followed by a relative path is followed piece by piece. -/
theorem follow_join (l : Location) (p q : Path) :
    l.follow (p / q) = if q.isAbsolute then l.follow q else (l.follow p).follow q := by
  cases h : q.isAbsolute
  · rw [Path.join_of_not_isAbsolute h]
    have : q.anchor = .here := by simpa [Path.isAbsolute] using h
    simp [follow, this, Path.isAbsolute]
  · simp [Path.join_of_isAbsolute h]

end Location

end ModuleBuild
