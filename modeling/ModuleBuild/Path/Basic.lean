/-!
# Paths

A path is an anchor, which says where it starts, and the segments that lead on from there. Segments
are never empty, never a single dot and hold no slash, so a path has one spelling: doubled slashes,
dots and a slash at the end vanish when a path is read. A double dot is a segment like any other.

`join_assoc` and `here_join` are the laws of following one path after another.
-/

namespace ModuleBuild

/-- The text may stand between two slashes of a path. -/
def Segment.IsValid (s : String) : Prop := s ≠ "" ∧ s ≠ "." ∧ '/' ∉ s.toList

instance (s : String) : Decidable (Segment.IsValid s) := by
  unfold Segment.IsValid; infer_instance

/-- One step of a path: a name, or the double dot that leads to the directory above. -/
structure Segment where
  text : String
  isValid : Segment.IsValid text

namespace Segment

@[ext] theorem ext {a b : Segment} (h : a.text = b.text) : a = b := by
  cases a; cases b; simp_all

instance : DecidableEq Segment := fun a b ↦
  decidable_of_iff (a.text = b.text) ⟨Segment.ext, fun h ↦ h ▸ rfl⟩

instance : Repr Segment := ⟨fun s n ↦ reprPrec s.text n⟩

/-- The segment that a text between two slashes is, if it is one. -/
def ofString? (s : String) : Option Segment :=
  if h : IsValid s then some ⟨s, h⟩ else none

/-- The step to the directory above. -/
def up : Segment := ⟨"..", by decide +kernel⟩

instance : Inhabited Segment := ⟨up⟩

@[simp] theorem ofString?_text (s : Segment) : ofString? s.text = some s := by
  simp [ofString?, s.isValid]

end Segment

/-- Where a path starts. -/
inductive Anchor where
  /-- At the current directory. -/
  | here
  /-- At the root of the file tree. -/
  | root
  /-- At the root, written with two slashes. -/
  | doubleRoot
  deriving DecidableEq, Repr

namespace Anchor

/-- The slashes in front of a path. -/
def text : Anchor → String
  | .here => ""
  | .root => "/"
  | .doubleRoot => "//"

/-- The anchor that so many leading slashes stand for: three and more count as one. -/
def ofSlashes : Nat → Anchor
  | 0 => .here
  | 2 => .doubleRoot
  | _ => .root

end Anchor

/-- A path in the file tree. -/
structure Path where
  anchor : Anchor
  segments : List Segment
  deriving DecidableEq, Repr

namespace Path

/-- The current directory. -/
def here : Path := ⟨.here, []⟩

instance : Inhabited Path := ⟨here⟩

/-- The path that a text spells. -/
def ofString (s : String) : Path where
  anchor := .ofSlashes (s.toList.takeWhile (· == '/')).length
  segments := (s.toList.splitOn '/').filterMap fun cs ↦ Segment.ofString? (.ofList cs)

/-- The text of a path; a path without segments and anchor is a dot. -/
protected def toString (p : Path) : String :=
  if p.anchor = .here ∧ p.segments = [] then "."
  else p.anchor.text ++ "/".intercalate (p.segments.map Segment.text)

instance : ToString Path := ⟨Path.toString⟩

/-- The path starts at the root. -/
def isAbsolute (p : Path) : Bool := p.anchor != .here

/-- Follow `p`, then `q`; an absolute `q` starts afresh. -/
def join (p q : Path) : Path :=
  if q.isAbsolute then q else ⟨p.anchor, p.segments ++ q.segments⟩

instance : HDiv Path Path Path := ⟨join⟩

/-- The path without its last segment. -/
def parent (p : Path) : Path := ⟨p.anchor, p.segments.dropLast⟩

/-- The last segment, if there is one. -/
def name? (p : Path) : Option Segment := p.segments.getLast?

theorem join_of_isAbsolute {p q : Path} (h : q.isAbsolute) : p / q = q := by
  simp [HDiv.hDiv, join, h]

theorem join_of_not_isAbsolute {p q : Path} (h : q.isAbsolute = false) :
    p / q = ⟨p.anchor, p.segments ++ q.segments⟩ := by
  simp [HDiv.hDiv, join, h]

/-- Joining to the current directory changes nothing. -/
@[simp] theorem here_join (p : Path) : here / p = p := by
  cases p with
  | mk a s => cases a <;> rfl

/-- Joining is associative. -/
theorem join_assoc (p q r : Path) : p / q / r = p / (q / r) := by
  cases h : r.isAbsolute
  · cases hq : q.isAbsolute
    · have : (q / r).isAbsolute = false := by
        rw [join_of_not_isAbsolute h]; exact hq
      rw [join_of_not_isAbsolute h, join_of_not_isAbsolute hq, join_of_not_isAbsolute this,
        join_of_not_isAbsolute h]
      simp
    · have : (q / r).isAbsolute = true := by
        rw [join_of_not_isAbsolute h]; exact hq
      rw [join_of_isAbsolute hq, join_of_isAbsolute this]
  · have : (q / r).isAbsolute = true := by rw [join_of_isAbsolute h]; exact h
    rw [join_of_isAbsolute h, join_of_isAbsolute this, join_of_isAbsolute h]

end Path

end ModuleBuild
