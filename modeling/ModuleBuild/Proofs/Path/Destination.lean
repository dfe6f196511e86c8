import ModuleBuild.Proofs.Path.Normal

/-!
# Where normal forms lead

Following a path step by step ends at its `destination`, a double dot at the root staying there. From a directory the
normal form of a path leads where the path does, unless the path meets a double dot at the root: this cancels the root,
so that what is left starts at the directory (`destination_normalize_iff`). Relative paths have one normal form exactly
if they lead to one place from all directories that are deep enough (`normalize_eq_iff`).
-/

namespace ModuleBuild.Path

/-- Where an absolute path leads, going by its segments alone: a path without double dots. -/
def destination (p : Path) : Path := ⟨p.anchor, (p.segments.foldl Location.step []).reverse⟩

/-- A directory to start from: absolute, and without double dots. -/
structure IsBase (b : Path) : Prop where
  isAbsolute : b.isAbsolute
  isStraight : b.IsStraight

/-- The paths lead to one place from every directory that is deep enough. -/
def SamePlace (p q : Path) : Prop :=
  ∃ depth, ∀ b : Path, b.IsBase → depth ≤ b.segments.length → (b / p).destination = (b / q).destination

/-- The path starts at the root, and comes to a double dot when it is there. -/
def ClimbsOverRoot (p : Path) : Prop :=
  p.isAbsolute ∧ ∃ front back, p.segments = front ++ .up :: back ∧ front.foldl Location.step [] = []

/-! ### The anchor of a normal form -/

theorem anchor_pushSegment (p : Path) (s : Segment) :
    (p.pushSegment s).anchor = if s = .up ∧ p.segments = [] then .here else p.anchor := by
  unfold pushSegment
  by_cases hs : s = .up
  · cases hp : p.segments with
    | nil =>
      cases ha : p.anchor <;> simp [hs, isAbsolute, here, ha]
    | cons t ts => by_cases ht : t = .up <;> simp [hs, ht]
  · simp [hs]

/-- While segments are pushed the anchor stays or is lost. -/
theorem anchor_foldl_pushSegment (p : Path) (ss : List Segment) :
    (ss.foldl pushSegment p).anchor = p.anchor ∨ (ss.foldl pushSegment p).anchor = .here := by
  induction ss generalizing p with
  | nil => exact .inl rfl
  | cons s ss ih =>
    rw [List.foldl_cons]
    rcases ih (p.pushSegment s) with h | h
    · rw [h, anchor_pushSegment]
      split
      · exact .inr rfl
      · exact .inl rfl
    · exact .inr h

/-- Onto names a segment is pushed by following it, unless it is a double dot and there is no name. -/
theorem pushSegment_of_ne_up {a : Anchor} {stack : List Segment} (h : ∀ t ∈ stack, t ≠ .up) {s : Segment}
    (hs : ¬(s = .up ∧ stack = [])) : pushSegment ⟨a, stack⟩ s = ⟨a, Location.step stack s⟩ := by
  unfold pushSegment Location.step
  by_cases hup : s = .up
  · cases stack with
    | nil => exact absurd ⟨hup, rfl⟩ hs
    | cons t ts =>
      have ht : t ≠ .up := h t List.mem_cons_self
      simp [hup, ht]
  · simp [hup]

theorem ne_up_of_mem_step {l : Location} (h : ∀ t ∈ l, t ≠ .up) (s : Segment) : ∀ t ∈ l.step s, t ≠ .up := by
  unfold Location.step
  split
  · exact fun t ht ↦ h t (List.mem_of_mem_tail ht)
  · next hs => exact List.forall_mem_cons.mpr ⟨hs, h⟩

/-- The root is kept exactly if no double dot comes there. -/
theorem anchor_foldl_pushSegment_eq_iff {a : Anchor} (ha : a ≠ .here) (ss : List Segment) {stack : List Segment}
    (h : ∀ t ∈ stack, t ≠ .up) :
    (ss.foldl pushSegment ⟨a, stack⟩).anchor = a ↔
      ¬∃ front back, ss = front ++ .up :: back ∧ front.foldl Location.step stack = [] := by
  induction ss generalizing stack with
  | nil => simp
  | cons s ss ih =>
    rw [List.foldl_cons]
    by_cases hs : s = .up ∧ stack = []
    · have hhere : (pushSegment ⟨a, stack⟩ s).anchor = .here := by rw [anchor_pushSegment, if_pos hs]
      have hlost : (ss.foldl pushSegment (pushSegment ⟨a, stack⟩ s)).anchor = .here := by
        simpa [hhere] using anchor_foldl_pushSegment (pushSegment ⟨a, stack⟩ s) ss
      rw [hlost]
      refine iff_of_false (Ne.symm ha) (not_not_intro ⟨[], ss, ?_, hs.2⟩)
      rw [List.nil_append, hs.1]
    · rw [pushSegment_of_ne_up h hs, ih (ne_up_of_mem_step h s), not_iff_not]
      constructor
      · rintro ⟨front, back, rfl, hroot⟩
        exact ⟨s :: front, back, rfl, hroot⟩
      · rintro ⟨front, back, hsplit, hroot⟩
        cases front with
        | nil => exact absurd ⟨(List.cons.inj hsplit).1, hroot⟩ hs
        | cons t front =>
          obtain ⟨rfl, rfl⟩ := List.cons.inj hsplit
          exact ⟨front, back, rfl, hroot⟩

theorem anchor_normalize (p : Path) : p.normalize.anchor = p.anchor ∨ p.normalize.anchor = .here :=
  anchor_foldl_pushSegment ⟨p.anchor, []⟩ p.segments

theorem anchor_normalize_of_not_isAbsolute {p : Path} (h : p.isAbsolute = false) : p.normalize.anchor = .here := by
  have ha : p.anchor = .here := by simpa [isAbsolute] using h
  simpa [ha] using p.anchor_normalize

/-- A path keeps its anchor in its normal form unless it climbs over the root. -/
theorem anchor_normalize_eq_iff {p : Path} : p.normalize.anchor = p.anchor ↔ ¬p.ClimbsOverRoot := by
  unfold ClimbsOverRoot
  cases h : p.isAbsolute with
  | false =>
    have ha : p.anchor = .here := by simpa [isAbsolute] using h
    simp [anchor_normalize_of_not_isAbsolute h, ha]
  | true =>
    have ha : p.anchor ≠ .here := by simpa [isAbsolute] using h
    rw [and_iff_right rfl]
    exact anchor_foldl_pushSegment_eq_iff ha p.segments fun _ ht ↦ absurd ht List.not_mem_nil

/-- A path that climbs over the root loses it in its normal form. -/
theorem anchor_normalize_of_climbsOverRoot {p : Path} (h : p.ClimbsOverRoot) : p.normalize.anchor = .here :=
  p.anchor_normalize.resolve_left (mt anchor_normalize_eq_iff.mp (not_not_intro h))

/-! ### Following a normal form -/

/-- What a segment is pushed onto leads where it led, and then on by the segment. -/
theorem foldr_step_pushSegment {p : Path} {l : Location} (h : p.isAbsolute → l = []) (s : Segment) :
    (p.pushSegment s).segments.foldr (fun s l ↦ Location.step l s) l =
      Location.step (p.segments.foldr (fun s l ↦ Location.step l s) l) s := by
  unfold pushSegment
  by_cases hs : s = .up
  · subst hs
    cases hp : p.segments with
    | nil =>
      by_cases ha : p.isAbsolute
      · simp [ha, here, h ha]
      · simp [ha]
    | cons t ts =>
      by_cases ht : t = .up
      · simp [ht]
      · simp [ht, Location.step]
  · simp [hs]

/-- From any location a path leads where its normal form does; a path from the root leads from there. -/
theorem foldl_step_normalize {p : Path} {l : Location} (h : p.isAbsolute → l = []) :
    p.normalize.segments.foldl Location.step l = p.segments.foldl Location.step l := by
  have hfold (ss : List Segment) {q : Path} (hq : q.isAbsolute → l = []) :
      (ss.foldl pushSegment q).segments.foldr (fun s l ↦ Location.step l s) l =
        ss.foldl Location.step (q.segments.foldr (fun s l ↦ Location.step l s) l) := by
    induction ss generalizing q with
    | nil => rfl
    | cons s ss ih =>
      have hnext : (q.pushSegment s).isAbsolute → l = [] := by
        intro ha
        refine hq ?_
        simp only [isAbsolute, anchor_pushSegment, bne_iff_ne, ne_eq, ite_eq_left_iff] at ha ⊢
        exact fun hhere ↦ ha fun _ ↦ hhere
      rw [List.foldl_cons, List.foldl_cons, ih hnext, foldr_step_pushSegment hq]
  rw [normalize, List.foldl_reverse]
  exact hfold p.segments h

/-- From a directory a relative path leads where its segments do. -/
theorem destination_join {p : Path} (h : p.isAbsolute = false) (b : Path) :
    (b / p).destination =
      ⟨b.anchor, (p.segments.foldl Location.step (b.segments.foldl Location.step [])).reverse⟩ := by
  rw [join_of_not_isAbsolute h, destination, List.foldl_append]

/-- A normal form that keeps the anchor leads where the path does. -/
theorem destination_join_normalize {p : Path} (h : ¬p.ClimbsOverRoot) (b : Path) :
    (b / p.normalize).destination = (b / p).destination := by
  have hanchor := anchor_normalize_eq_iff.mpr h
  have habs : p.normalize.isAbsolute = p.isAbsolute := by rw [isAbsolute, hanchor, isAbsolute]
  cases hp : p.isAbsolute with
  | false =>
    rw [destination_join hp, destination_join (habs.trans hp), foldl_step_normalize (by simp [hp])]
  | true =>
    rw [join_of_isAbsolute hp, join_of_isAbsolute (habs.trans hp), destination, destination, hanchor,
      foldl_step_normalize fun _ ↦ rfl]

/-- Where a path in normal form leads from a directory that is deep enough. -/
theorem destination_join_of_isBase {p b : Path} (h : p.isAbsolute = false) (hnormal : p.IsNormal) (hb : b.IsBase) :
    (b / p).destination = ⟨b.anchor, (p.names.reverse ++ b.segments.reverse.drop p.climbs).reverse⟩ := by
  have hbase : b.segments.foldl Location.step [] = b.segments.reverse := by
    rw [Location.foldl_step_of_ne_up hb.isStraight, List.append_nil]
  have hnames : ∀ s ∈ p.names, s ≠ .up := hnormal
  rw [destination_join h, hbase, p.segments_eq, List.foldl_append, Location.foldl_step_replicate_up,
    Location.foldl_step_of_ne_up hnames]

/-- A directory that so many times the same name leads down to. -/
def chain (n : Nat) (s : Segment) : Path := ⟨.root, List.replicate n s⟩

theorem isBase_chain (n : Nat) {s : Segment} (hs : s ≠ .up) : (chain n s).IsBase where
  isAbsolute := rfl
  isStraight := fun _ ht ↦ List.eq_of_mem_replicate ht ▸ hs

/-- Where a path in normal form leads from such a directory. -/
theorem segments_destination_chain {p : Path} (h : p.isAbsolute = false) (hnormal : p.IsNormal) (n : Nat)
    {s : Segment} (hs : s ≠ .up) :
    (chain n s / p).destination.segments = List.replicate (n - p.climbs) s ++ p.names := by
  rw [destination_join_of_isBase h hnormal (isBase_chain n hs)]
  simp [chain]

/-! ### What is told by normal forms -/

/-- Names behind two chains of names, equal for two different names to make chains of, are the same. -/
theorem eq_of_replicate_append_eq {α : Type} {s s' : α} (hs : s ≠ s') {m n : Nat} {xs ys : List α}
    (h : List.replicate m s ++ xs = List.replicate n s ++ ys)
    (h' : List.replicate m s' ++ xs = List.replicate n s' ++ ys) : m = n ∧ xs = ys := by
  wlog hle : m ≤ n generalizing m n xs ys with hswap
  · obtain ⟨hmn, hxs⟩ := hswap h.symm h'.symm (by omega)
    exact ⟨hmn.symm, hxs.symm⟩
  obtain ⟨k, rfl⟩ := Nat.exists_eq_add_of_le hle
  rw [List.replicate_add, List.append_assoc, List.append_cancel_left_eq] at h h'
  cases k with
  | zero => exact ⟨rfl, h⟩
  | succ k =>
    rw [h] at h'
    simp [List.replicate_succ, hs] at h'

theorem exists_names_ne : ∃ s s' : Segment, s ≠ .up ∧ s' ≠ .up ∧ s ≠ s' :=
  ⟨⟨"a", by decide +kernel⟩, ⟨"b", by decide +kernel⟩, by decide +kernel, by decide +kernel, by decide +kernel⟩

theorem not_climbsOverRoot {p : Path} (h : p.isAbsolute = false) : ¬p.ClimbsOverRoot :=
  fun hclimbs ↦ by simp [hclimbs.1] at h

theorem isAbsolute_normalize {p : Path} (h : p.isAbsolute = false) : p.normalize.isAbsolute = false := by
  rw [isAbsolute, anchor_normalize_of_not_isAbsolute h]
  rfl

/-- Relative paths have one normal form exactly if they lead to one place from deep directories. -/
theorem normalize_eq_iff {p q : Path} (hp : p.isAbsolute = false) (hq : q.isAbsolute = false) :
    p.normalize = q.normalize ↔ p.SamePlace q := by
  constructor
  · intro h
    refine ⟨0, fun b _ _ ↦ ?_⟩
    rw [← destination_join_normalize (not_climbsOverRoot hp), h, destination_join_normalize (not_climbsOverRoot hq)]
  · rintro ⟨depth, hsame⟩
    let n := depth + p.normalize.climbs + q.normalize.climbs
    have hchain {s : Segment} (hs : s ≠ .up) :
        List.replicate (n - p.normalize.climbs) s ++ p.normalize.names =
          List.replicate (n - q.normalize.climbs) s ++ q.normalize.names := by
      have h := hsame (chain n s) (isBase_chain n hs) (by simp only [chain, List.length_replicate]; omega)
      rw [← destination_join_normalize (not_climbsOverRoot hp),
        ← destination_join_normalize (not_climbsOverRoot hq)] at h
      rw [← segments_destination_chain (isAbsolute_normalize hp) (isNormal_normalize p) n hs, h,
        segments_destination_chain (isAbsolute_normalize hq) (isNormal_normalize q) n hs]
    -- chains of two names tell how far up the paths lead
    obtain ⟨s, s', hs, hs', hne⟩ := exists_names_ne
    obtain ⟨hclimbs, hnames⟩ := eq_of_replicate_append_eq hne (hchain hs) (hchain hs')
    have hclimbs' : p.normalize.climbs = q.normalize.climbs := by omega
    have hsegments : p.normalize.segments = q.normalize.segments := by
      rw [p.normalize.segments_eq, q.normalize.segments_eq, hclimbs', hnames]
    have hanchor : p.normalize.anchor = q.normalize.anchor := by
      rw [anchor_normalize_of_not_isAbsolute hp, anchor_normalize_of_not_isAbsolute hq]
    exact congrArg₂ Path.mk hanchor hsegments

/-- From a deep directory what has lost the root leads deeper than the path. -/
theorem exists_destination_ne {p : Path} (h : p.ClimbsOverRoot) :
    ∃ b : Path, b.IsBase ∧ (b / p.normalize).destination ≠ (b / p).destination := by
  obtain ⟨s, -, hs, -⟩ := exists_names_ne
  let n := p.normalize.climbs + p.destination.segments.length + 1
  refine ⟨chain n s, isBase_chain n hs, fun heq ↦ ?_⟩
  have hrelative : p.normalize.isAbsolute = false := by
    rw [isAbsolute, anchor_normalize_of_climbsOverRoot h]
    rfl
  have hlength := congrArg (fun q : Path ↦ q.segments.length) heq
  rw [segments_destination_chain hrelative (isNormal_normalize p) n hs, join_of_isAbsolute h.1, List.length_append,
    List.length_replicate] at hlength
  omega

/-- The normal form of a path is of its kind, and leads from every directory where the path does, exactly if the path
does not climb over the root. -/
theorem destination_normalize_iff (p : Path) :
    (p.normalize.isAbsolute = p.isAbsolute ↔ ¬p.ClimbsOverRoot) ∧
      ((∀ b : Path, b.IsBase → (b / p.normalize).destination = (b / p).destination) ↔ ¬p.ClimbsOverRoot) := by
  refine ⟨⟨fun habs hclimbs ↦ ?_, fun h ↦ ?_⟩, fun hsame hclimbs ↦ ?_, fun h b _ ↦ destination_join_normalize h b⟩
  · rw [hclimbs.1, isAbsolute, anchor_normalize_of_climbsOverRoot hclimbs] at habs
    cases habs
  · rw [isAbsolute, anchor_normalize_eq_iff.mpr h, isAbsolute]
  · obtain ⟨b, hb, hne⟩ := exists_destination_ne hclimbs
    exact hne (hsame b hb)

/-- A double dot at the root: the normal form is another path, and leads elsewhere from a directory. -/
theorem normalize_loses_root :
    (ofString "/../a").isAbsolute ∧ (ofString "/../a").normalize = ofString "a" ∧
      (ofString "/b").IsBase ∧ (ofString "/b" / (ofString "/../a").normalize).destination = ofString "/b/a" ∧
      (ofString "/b" / ofString "/../a").destination = ofString "/a" := by
  refine ⟨?_, ?_, ⟨?_, ?_⟩, ?_, ?_⟩ <;> decide +kernel

end ModuleBuild.Path
