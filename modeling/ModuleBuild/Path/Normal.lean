import ModuleBuild.Path.Basic

/-!
# Normal form of paths

A name followed by a double dot cancels, so that the identity of a module does not hang on how a
reference to it is spelled. What is left is a run of double dots and then names (`isNormal_normalize`).

A double dot at the root cancels the root itself: `/..` has the normal form `.`.
-/

namespace ModuleBuild.Path

/-- Take one more segment into a normal form, whose segments are held in reverse. -/
def pushSegment (p : Path) (s : Segment) : Path :=
  if s = .up then
    match p.segments with
    | t :: ts => if t = .up then ⟨p.anchor, s :: t :: ts⟩ else ⟨p.anchor, ts⟩
    | [] => if p.isAbsolute then here else ⟨p.anchor, [s]⟩
  else ⟨p.anchor, s :: p.segments⟩

/-- The path with every name that a double dot follows cancelled. -/
def normalize (p : Path) : Path :=
  let q := p.segments.foldl pushSegment ⟨p.anchor, []⟩
  ⟨q.anchor, q.segments.reverse⟩

/-- The segments are names behind a run of double dots. -/
def IsNormal (p : Path) : Prop := ∀ s ∈ p.segments.dropWhile (· == .up), s ≠ .up

/-- Names are stacked on a run of double dots, which lies at the end of the reversed segments. -/
private def IsStack : List Segment → Prop
  | [] => True
  | s :: ss => IsStack ss ∧ (s = .up → ∀ t ∈ ss, t = .up)

private theorem isStack_pushSegment {p : Path} (h : IsStack p.segments) (s : Segment) :
    IsStack (p.pushSegment s).segments := by
  unfold pushSegment
  split
  · split
    · rename_i t ts heq
      rw [heq] at h
      split
      · exact ⟨h, fun _ u hu ↦ by
          rcases List.mem_cons.mp hu with rfl | hu
          · assumption
          · exact h.2 ‹_› u hu⟩
      · exact h.1
    · split <;> simp [IsStack, here]
  · exact ⟨h, fun hs ↦ absurd hs ‹_›⟩

private theorem isStack_foldl (ss : List Segment) {p : Path} (h : IsStack p.segments) :
    IsStack (ss.foldl pushSegment p).segments := by
  induction ss generalizing p with
  | nil => exact h
  | cons s ss ih => exact ih (isStack_pushSegment h s)

private theorem ne_up_of_isStack {ss : List Segment} (h : IsStack ss) :
    ∀ s ∈ ss.reverse.dropWhile (· == .up), s ≠ .up := by
  induction ss with
  | nil => simp
  | cons s ss ih =>
    rw [List.reverse_cons, List.dropWhile_append]
    by_cases hs : s = .up
    · have hall : ss.reverse.dropWhile (· == .up) = [] := by
        have hrep : ss.reverse = .replicate ss.length .up := by
          rw [List.eq_replicate_iff]
          exact ⟨by simp, fun t ht ↦ h.2 hs t (List.mem_reverse.mp ht)⟩
        simp [hrep]
      simp [hall, hs]
    · split
      · simp [hs]
      · intro t ht
        rcases List.mem_append.mp ht with ht | ht
        · exact ih h.1 t ht
        · simp_all

/-- The normal form is a run of double dots followed by names. -/
theorem isNormal_normalize (p : Path) : p.normalize.IsNormal :=
  ne_up_of_isStack (isStack_foldl p.segments (by simp [IsStack]))

end ModuleBuild.Path
