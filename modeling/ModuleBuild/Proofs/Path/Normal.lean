import ModuleBuild.Path.Normal
import ModuleBuild.Proofs.FileTree.Shape
import Mathlib.Data.List.TakeWhile

/-!
# Paths in normal form

The normal form of a path has no other normal form than itself (`normalize_normalize`). Names at the end of a path
stay in it as they are (`normalize_append`), so that double dots cancel only what stands in front of the last of them:
paths that agree up to there differ if their normal forms do not (`eq_of_normalize_eq`).
-/

namespace ModuleBuild.Path

/-- The double dots in front of a path. -/
def climbs (p : Path) : Nat := (p.segments.takeWhile (· == .up)).length

/-- The segments behind the double dots in front of a path. -/
def names (p : Path) : List Segment := p.segments.dropWhile (· == .up)

theorem segments_eq (p : Path) : p.segments = List.replicate p.climbs .up ++ p.names := by
  have hall : p.segments.takeWhile (· == .up) = List.replicate p.climbs .up := by
    rw [climbs, List.eq_replicate_iff]
    exact ⟨rfl, fun s hs ↦ by simpa using List.mem_takeWhile_imp hs⟩
  rw [← hall, names, List.takeWhile_append_dropWhile]

/-- A name behind a path in normal form leaves it in normal form. -/
theorem IsNormal.append {a : Anchor} {ss : List Segment} {s : Segment}
    (h : (⟨a, ss⟩ : Path).IsNormal) (hs : s ≠ .up) : (⟨a, ss ++ [s]⟩ : Path).IsNormal := by
  intro t ht
  simp only [List.dropWhile_append] at ht
  split at ht
  · simp only [List.dropWhile_cons, beq_iff_eq, hs, if_false, List.mem_singleton] at ht
    exact ht ▸ hs
  · rcases List.mem_append.mp ht with ht | ht
    · exact h t ht
    · exact List.mem_singleton.mp ht ▸ hs

/-- Names are pushed one on another. -/
theorem foldl_pushSegment_of_ne_up {a : Anchor} {ss stack : List Segment} (h : ∀ s ∈ ss, s ≠ .up) :
    ss.foldl pushSegment ⟨a, stack⟩ = ⟨a, ss.reverse ++ stack⟩ := by
  induction ss generalizing stack with
  | nil => rfl
  | cons s ss ih =>
    have hs : pushSegment ⟨a, stack⟩ s = ⟨a, s :: stack⟩ := if_neg (h s List.mem_cons_self)
    rw [List.foldl_cons, hs, ih fun s' hs' ↦ h s' (List.mem_cons_of_mem _ hs')]
    simp

/-- In a path that starts at the current directory there is nothing that a double dot in front could cancel. -/
theorem foldl_pushSegment_replicate_up (n k : Nat) :
    (List.replicate n Segment.up).foldl pushSegment ⟨.here, List.replicate k .up⟩ =
      ⟨.here, List.replicate (k + n) .up⟩ := by
  induction n generalizing k with
  | zero => rfl
  | succ n ih =>
    have hpush : pushSegment ⟨.here, List.replicate k .up⟩ .up = ⟨.here, List.replicate (k + 1) .up⟩ := by
      cases k with
      | zero => rfl
      | succ k => rfl
    rw [List.replicate_succ, List.foldl_cons, hpush, ih]
    congr 2
    omega

/-- Names at the end of a path stay at the end of its normal form. -/
theorem normalize_append {a : Anchor} {ss ss' : List Segment} (h : ∀ s ∈ ss', s ≠ .up) :
    (⟨a, ss ++ ss'⟩ : Path).normalize =
      ⟨(⟨a, ss⟩ : Path).normalize.anchor, (⟨a, ss⟩ : Path).normalize.segments ++ ss'⟩ := by
  unfold normalize
  simp only [List.foldl_append]
  rw [foldl_pushSegment_of_ne_up h]
  simp

/-- A path without double dots is in normal form. -/
theorem IsStraight.normalize_eq {p : Path} (h : p.IsStraight) : p.normalize = p :=
  @normalize_append p.anchor [] p.segments h

/-- Behind a root there are no double dots while segments are pushed. -/
private theorem isStraight_pushSegment {p : Path} (h : p.isAbsolute → p.IsStraight) (s : Segment) :
    (p.pushSegment s).isAbsolute → (p.pushSegment s).IsStraight := by
  intro ha
  by_cases hs : s = .up
  · subst hs
    unfold pushSegment at ha ⊢
    rw [if_pos rfl] at ha ⊢
    cases hp : p.segments with
    | nil =>
      rw [hp] at ha
      dsimp only at ha ⊢
      split at ha
      · simp [here, isAbsolute] at ha
      · next hn => exact absurd ha hn
    | cons s' ss =>
      rw [hp] at ha
      dsimp only at ha ⊢
      split at ha
      · next hup =>
        have hstraight : p.IsStraight := h ha
        exact absurd hup (hstraight s' (by simp [hp]))
      · next hup =>
        rw [if_neg hup]
        intro t ht
        exact h ha t (hp ▸ List.mem_cons_of_mem _ ht)
  · unfold pushSegment at ha ⊢
    rw [if_neg hs] at ha ⊢
    intro t ht
    rcases List.mem_cons.mp ht with rfl | ht
    · exact hs
    · exact h ha t ht

/-- There is no double dot in a normal form that starts at the root. -/
theorem isStraight_normalize {p : Path} (h : p.normalize.isAbsolute) : p.normalize.IsStraight := by
  have hfold : ∀ (ss : List Segment) (q : Path), (q.isAbsolute → q.IsStraight) →
      (ss.foldl pushSegment q).isAbsolute → (ss.foldl pushSegment q).IsStraight := by
    intro ss
    induction ss with
    | nil => exact fun q hq ↦ hq
    | cons s ss ih => exact fun q hq ↦ ih (q.pushSegment s) (isStraight_pushSegment hq s)
  intro s hs
  exact hfold p.segments ⟨p.anchor, []⟩ (fun _ ↦ by simp [IsStraight]) h s (List.mem_reverse.mp hs)

/-- Names behind a run of double dots are in normal form, if there is no double dot at the root. -/
theorem IsNormal.normalize_eq {p : Path} (h : p.IsNormal) (habs : p.isAbsolute → p.IsStraight) :
    p.normalize = p := by
  cases ha : p.isAbsolute with
  | true => exact (habs ha).normalize_eq
  | false =>
    have hanchor : p.anchor = .here := by simpa [isAbsolute] using ha
    have hnames : ∀ s ∈ p.names, s ≠ .up := h
    have hfold : p.segments.foldl pushSegment ⟨p.anchor, []⟩ = ⟨.here, p.segments.reverse⟩ := by
      rw [p.segments_eq, hanchor, List.foldl_append]
      have hups := foldl_pushSegment_replicate_up p.climbs 0
      simp only [List.replicate_zero, Nat.zero_add] at hups
      rw [hups, foldl_pushSegment_of_ne_up hnames]
      simp
    rw [normalize, hfold, List.reverse_reverse, ← hanchor]

/-- Normal forms are in normal form. -/
@[simp] theorem normalize_normalize (p : Path) : p.normalize.normalize = p.normalize :=
  (isNormal_normalize p).normalize_eq isStraight_normalize

/-- A name behind a path that is its own normal form leaves it so. -/
theorem normalize_concat {p : Path} {s : Segment} (h : p.normalize = p) (hs : s ≠ .up) :
    (⟨p.anchor, p.segments ++ [s]⟩ : Path).normalize = ⟨p.anchor, p.segments ++ [s]⟩ := by
  rw [normalize_append (by simpa using hs), h]

/-! ### Above the last double dot -/

/-- The segments of a path up to its last double dot. -/
def ascending (p : Path) : List Segment := (p.segments.reverse.dropWhile (· != .up)).reverse

/-- The names behind the last double dot of a path. -/
def descending (p : Path) : List Segment := (p.segments.reverse.takeWhile (· != .up)).reverse

theorem ascending_append_descending (p : Path) : p.ascending ++ p.descending = p.segments := by
  rw [ascending, descending, ← List.reverse_append, List.takeWhile_append_dropWhile, List.reverse_reverse]

theorem ne_up_of_mem_descending {p : Path} {s : Segment} (h : s ∈ p.descending) : s ≠ .up := by
  have hs := List.mem_takeWhile_imp (List.mem_reverse.mp h)
  simpa using hs

theorem ascending_eq_nil_iff {p : Path} : p.ascending = [] ↔ p.IsStraight := by
  simp [ascending, IsStraight]

/-- The part of a path up to its last double dot; the current directory if there is none. -/
def ascent (p : Path) : Path := if p.ascending = [] then here else ⟨p.anchor, p.ascending⟩

/-- Only a path without double dots has no ascent. -/
theorem ascent_eq_here_iff {p : Path} : p.ascent = here ↔ p.IsStraight := by
  rw [← ascending_eq_nil_iff, ascent]
  by_cases h : p.ascending = []
  · simp [h]
  · simp [h, here]

/-- Behind the last double dot nothing cancels: paths that agree up to there are told by their normal forms. -/
theorem eq_of_normalize_eq {p q : Path} (h : p.ascent = q.ascent) (hn : p.normalize = q.normalize) : p = q := by
  by_cases hp : p.IsStraight
  · have hq : q.IsStraight := ascent_eq_here_iff.mp (h ▸ ascent_eq_here_iff.mpr hp)
    rwa [hp.normalize_eq, hq.normalize_eq] at hn
  · have hq : ¬q.IsStraight := fun hq ↦ hp (ascent_eq_here_iff.mp (h ▸ ascent_eq_here_iff.mpr hq))
    have hrest (r : Path) : r.normalize =
        ⟨(⟨r.anchor, r.ascending⟩ : Path).normalize.anchor,
          (⟨r.anchor, r.ascending⟩ : Path).normalize.segments ++ r.descending⟩ := by
      rw [← normalize_append fun s hs ↦ ne_up_of_mem_descending hs, r.ascending_append_descending]
    rw [ascent, ascent, if_neg (mt ascending_eq_nil_iff.mp hp), if_neg (mt ascending_eq_nil_iff.mp hq),
      Path.mk.injEq] at h
    obtain ⟨hanchor, hascending⟩ := h
    rw [hrest p, hrest q, hanchor, hascending, Path.mk.injEq, List.append_cancel_left_eq] at hn
    have hsegments : p.segments = q.segments := by
      rw [← p.ascending_append_descending, ← q.ascending_append_descending, hascending, hn.2]
    cases p with
    | mk a ss =>
      cases q with
      | mk b ss' => exact congrArg₂ Path.mk hanchor hsegments

end ModuleBuild.Path
