import ModuleBuild.Proofs.Path.Destination
import ModuleBuild.Proofs.Path.Siblings

/-!
# Below a directory

A path lies below a directory if its segments lead there, and then strictly down, once double dots are resolved
(`IsBelow`). Wherever such a path is followed from, it leads below the directory (`IsBelow.follow_eq`). What is put
under a directory need not stay there: it does exactly if its own directory climbs no further than the names of the
directory, and comes back down by those names (`isBelow_join_iff`).
-/

namespace ModuleBuild

namespace Path

/-- The path with its double dots resolved. At the root they lead nowhere; in front of a relative path they stay. -/
def lexical (p : Path) : Path := if p.isAbsolute then p.destination else p.normalize

/-- Going by segments alone, the path leads strictly down from the directory. -/
def IsBelow (p directory : Path) : Prop :=
  ∃ ss, ss ≠ [] ∧ (∀ s ∈ ss, s ≠ .up) ∧
    p.lexical = ⟨directory.lexical.anchor, directory.lexical.segments ++ ss⟩

/-- What is put under the directory at that path stays below it. An absolute path must lie below it itself; the
directory of a relative one must not climb above the first name of the directory, unless that name comes first at the
root, and must come back down by the names over which it climbs. -/
def StaysBelow (p directory : Path) : Prop :=
  if p.isAbsolute then p.IsBelow directory
  else
    (directory.isAbsolute ∨ p.parent.normalize.climbs ≤ directory.lexical.names.length) ∧
      directory.lexical.names.drop (directory.lexical.names.length - p.parent.normalize.climbs) <+:
        p.parent.normalize.names

variable {p q d : Path} {s : Segment}

instance (p d : Path) : Decidable (p.IsBelow d) :=
  decidable_of_iff (p.lexical.anchor = d.lexical.anchor ∧ d.lexical.segments <+: p.lexical.segments ∧
      p.lexical.segments.drop d.lexical.segments.length ≠ [] ∧
      ∀ s ∈ p.lexical.segments.drop d.lexical.segments.length, s ≠ .up) <| by
    constructor
    · rintro ⟨hanchor, ⟨ss, hss⟩, hne, hup⟩
      rw [← hss, List.drop_left] at hne hup
      exact ⟨ss, hne, hup, congrArg₂ Path.mk hanchor hss.symm⟩
    · rintro ⟨ss, hne, hup, hp⟩
      rw [hp]
      exact ⟨rfl, List.prefix_append .., by simpa using hne, by simpa using hup⟩

instance (p d : Path) : Decidable (p.StaysBelow d) := by
  unfold StaysBelow
  infer_instance

/-! ### Resolving double dots -/

theorem anchor_lexical (p : Path) : p.lexical.anchor = p.anchor := by
  unfold lexical
  cases h : p.isAbsolute with
  | true => rfl
  | false =>
    have ha : p.anchor = .here := by simpa [isAbsolute] using h
    rw [if_neg Bool.false_ne_true, anchor_normalize_of_not_isAbsolute h, ha]

theorem ne_up_of_mem_foldl_step (ss : List Segment) {l : Location} (h : ∀ t ∈ l, t ≠ .up) :
    ∀ t ∈ ss.foldl Location.step l, t ≠ .up := by
  induction ss generalizing l with
  | nil => exact h
  | cons s ss ih => exact ih (ne_up_of_mem_step h s)

theorem isStraight_destination (p : Path) : p.destination.IsStraight := fun _ hs ↦
  ne_up_of_mem_foldl_step p.segments (fun _ ht ↦ absurd ht List.not_mem_nil) _ (List.mem_reverse.mp hs)

/-- Double dots are left only in front, and none at the root. -/
theorem isNormal_lexical (p : Path) : p.lexical.IsNormal := by
  unfold lexical
  split
  · exact fun s hs ↦ p.isStraight_destination s (List.dropWhile_subset _ hs)
  · exact isNormal_normalize p

/-- A path leads where its segments do when double dots have been resolved. -/
theorem follow_lexical (p : Path) (l : Location) : l.follow p.lexical = l.follow p := by
  have habs : p.lexical.isAbsolute = p.isAbsolute := by rw [isAbsolute, anchor_lexical, isAbsolute]
  rw [Location.follow, Location.follow, habs]
  unfold lexical
  cases h : p.isAbsolute with
  | false => exact foldl_step_normalize (by simp [h])
  | true =>
    rw [if_pos rfl, if_pos rfl, Location.foldl_step_of_ne_up p.isStraight_destination, List.append_nil, destination,
      List.reverse_reverse]

/-- A name at the end of a path stays there. -/
theorem lexical_of_name? (hname : p.name? = some s) (hs : s ≠ .up) :
    p.lexical = ⟨p.parent.lexical.anchor, p.parent.lexical.segments ++ [s]⟩ := by
  obtain ⟨ss, hsegments⟩ := List.getLast?_eq_some_iff.mp hname
  have hparent : p.parent = ⟨p.anchor, ss⟩ := by rw [parent, hsegments, List.dropLast_concat]
  have hp : p = ⟨p.anchor, ss ++ [s]⟩ := by rw [← hsegments]
  have habs : p.parent.isAbsolute = p.isAbsolute := rfl
  unfold lexical
  rw [habs]
  split
  · rw [destination, destination, hparent, hsegments, List.foldl_append, List.foldl_cons, List.foldl_nil, Location.step,
      if_neg hs, List.reverse_cons]
  · rw [hparent]
    conv_lhs => rw [hp]
    exact normalize_append (by simpa using hs)

/-- What stands behind names is pushed like its normal form. -/
theorem foldl_pushSegment_normalize (h : q.isAbsolute = false) (p : Path) :
    q.normalize.segments.foldl pushSegment p = q.segments.foldl pushSegment p := by
  have ha : q.anchor = .here := by simpa [isAbsolute] using h
  suffices hfold : ∀ ss : List Segment,
      (ss.foldl pushSegment here).segments.reverse.foldl pushSegment p = ss.foldl pushSegment p by
    rw [normalize, ha]
    exact hfold q.segments
  intro ss
  induction ss using List.reverseRecOn with
  | nil => rfl
  | append_singleton ss s ih =>
    rw [List.foldl_append, List.foldl_cons, List.foldl_nil, List.foldl_append, List.foldl_cons, List.foldl_nil, ← ih]
    have hanchor : (ss.foldl pushSegment here).anchor = .here := by
      simpa [here] using anchor_foldl_pushSegment here ss
    generalize ss.foldl pushSegment here = r at hanchor ⊢
    by_cases hs : s = .up
    · subst hs
      cases hr : r.segments with
      | nil => simp [pushSegment, hr, isAbsolute, hanchor]
      | cons t ts =>
        by_cases ht : t = .up
        · simp [pushSegment, hr, ht]
        · -- a name that is pushed is taken away by the double dot
          simp [pushSegment, hr, ht]
    · simp [pushSegment, hs]

/-- Double dots take names away, one after another. -/
theorem foldl_pushSegment_climb {a : Anchor} {names rest : List Segment} {n : Nat} (h : ∀ s ∈ names, s ≠ .up)
    (hn : n ≤ names.length) :
    (List.replicate n Segment.up).foldl pushSegment ⟨a, names ++ rest⟩ = ⟨a, names.drop n ++ rest⟩ := by
  induction n generalizing names with
  | zero => rfl
  | succ n ih =>
    cases names with
    | nil => simp at hn
    | cons s names =>
      have hs : s ≠ .up := h s List.mem_cons_self
      have hpush : pushSegment ⟨a, s :: names ++ rest⟩ .up = ⟨a, names ++ rest⟩ := by simp [pushSegment, hs]
      rw [List.replicate_succ, List.foldl_cons, hpush,
        ih (fun t ht ↦ h t (List.mem_cons_of_mem _ ht)) (by simpa using hn)]
      rfl

theorem IsStraight.climbs_eq (h : p.IsStraight) : p.climbs = 0 := by
  rw [climbs, List.length_eq_zero_iff, List.takeWhile_eq_nil_iff]
  exact fun hlength ↦ by simpa using h _ (List.getElem_mem hlength)

theorem IsStraight.names_eq (h : p.IsStraight) : p.names = p.segments := by
  have hsegments := p.segments_eq
  rwa [h.climbs_eq, List.replicate_zero, List.nil_append, eq_comm] at hsegments

/-- The segments of a relative path are pushed to its names, on the double dots that are left in front. -/
theorem foldl_pushSegment_eq (h : d.isAbsolute = false) : d.segments.foldl pushSegment ⟨d.anchor, []⟩ =
    ⟨d.lexical.anchor, d.lexical.names.reverse ++ List.replicate d.lexical.climbs .up⟩ := by
  have hlexical : d.lexical = d.normalize := by simp [lexical, h]
  have hsegments := congrArg List.reverse d.normalize.segments_eq
  rw [List.reverse_append, List.reverse_replicate] at hsegments
  rw [hlexical, ← hsegments, normalize]
  simp

section Join

variable (hq : q.isAbsolute = false)

include hq

/-- Double dots in front of a path take away names of the directory that it is put under. At the root there is no more
to take away. -/
theorem lexical_join_of_le (h : d.isAbsolute ∨ q.normalize.climbs ≤ d.lexical.names.length) :
    (d / q).lexical = ⟨d.lexical.anchor, List.replicate d.lexical.climbs .up ++
      (d.lexical.names.take (d.lexical.names.length - q.normalize.climbs) ++ q.normalize.names)⟩ := by
  have hnames : ∀ s ∈ q.normalize.names, s ≠ .up := isNormal_normalize q
  have habs : (d / q).isAbsolute = d.isAbsolute := by
    rw [join_of_not_isAbsolute hq]
    rfl
  cases hd : d.isAbsolute with
  | true =>
    have hlexical : d.lexical = d.destination := by simp [lexical, hd]
    have hstraight := d.isStraight_destination
    rw [hlexical, hstraight.climbs_eq, hstraight.names_eq, lexical, habs, hd, if_pos rfl, destination_join hq,
      ← foldl_step_normalize (by simp [hq]), q.normalize.segments_eq, List.foldl_append,
      Location.foldl_step_replicate_up, Location.foldl_step_of_ne_up hnames, destination]
    simp [List.reverse_drop]
  | false =>
    have hle : q.normalize.climbs ≤ d.lexical.names.length := h.resolve_left (by simp [hd])
    have hdnames : ∀ s ∈ d.lexical.names, s ≠ .up := d.isNormal_lexical
    rw [lexical, habs, hd, if_neg Bool.false_ne_true, join_of_not_isAbsolute hq, normalize]
    dsimp only
    rw [List.foldl_append, foldl_pushSegment_eq hd, ← foldl_pushSegment_normalize hq, q.normalize.segments_eq,
      List.foldl_append, foldl_pushSegment_climb (by simpa using hdnames) (by simpa using hle),
      foldl_pushSegment_of_ne_up hnames]
    simp [List.reverse_drop]

/-- Above a relative directory the double dots that it has no name for are left. -/
theorem lexical_join_of_lt (hd : d.isAbsolute = false) (h : d.lexical.names.length < q.normalize.climbs) :
    (d / q).lexical = ⟨d.lexical.anchor,
      List.replicate (d.lexical.climbs + (q.normalize.climbs - d.lexical.names.length)) .up ++ q.normalize.names⟩ := by
  have hnames : ∀ s ∈ q.normalize.names, s ≠ .up := isNormal_normalize q
  have hdnames : ∀ s ∈ d.lexical.names, s ≠ .up := d.isNormal_lexical
  have habs : (d / q).isAbsolute = d.isAbsolute := by
    rw [join_of_not_isAbsolute hq]
    rfl
  have hanchor : d.lexical.anchor = .here := by
    rw [anchor_lexical]
    simpa [isAbsolute] using hd
  have hclimbs : q.normalize.climbs = d.lexical.names.length + (q.normalize.climbs - d.lexical.names.length) := by omega
  rw [lexical, habs, hd, if_neg Bool.false_ne_true, join_of_not_isAbsolute hq, normalize]
  dsimp only
  rw [List.foldl_append, foldl_pushSegment_eq hd, ← foldl_pushSegment_normalize hq, q.normalize.segments_eq,
    List.foldl_append, hclimbs, List.replicate_add, List.foldl_append,
    foldl_pushSegment_climb (by simpa using hdnames) (by simp), List.drop_of_length_le (by simp), List.nil_append,
    hanchor, foldl_pushSegment_replicate_up, foldl_pushSegment_of_ne_up hnames]
  simp

end Join

/-! ### Staying below -/

/-- Whether a path lies below a directory hangs on its own directory. -/
theorem isBelow_iff_parent (hname : p.name? = some s) (hs : s ≠ .up) :
    p.IsBelow d ↔ ∃ ss : List Segment, (∀ s ∈ ss, s ≠ .up) ∧
      p.parent.lexical = ⟨d.lexical.anchor, d.lexical.segments ++ ss⟩ := by
  rw [IsBelow, lexical_of_name? hname hs]
  constructor
  · rintro ⟨ss, hne, hss, heq⟩
    obtain ⟨front, last, rfl⟩ := (List.eq_nil_or_concat' ss).resolve_left hne
    obtain ⟨hanchor, hsegments⟩ := Path.mk.inj heq
    rw [← List.append_assoc] at hsegments
    obtain ⟨hfront, -⟩ := List.append_inj' hsegments rfl
    exact ⟨front, fun t ht ↦ hss t (List.mem_append_left _ ht), congrArg₂ Path.mk hanchor hfront⟩
  · rintro ⟨ss, hss, heq⟩
    refine ⟨ss ++ [s], by simp, ?_, ?_⟩
    · simpa [or_imp, forall_and, hs] using hss
    · rw [heq, List.append_assoc]

/-- Files in one directory lie below a directory together. -/
theorem isBelow_congr {p' : Path} {s' : Segment} (hname : p.name? = some s) (hs : s ≠ .up) (hname' : p'.name? = some s')
    (hs' : s' ≠ .up) (h : p.parent = p'.parent) : p.IsBelow d ↔ p'.IsBelow d := by
  rw [isBelow_iff_parent hname hs, isBelow_iff_parent hname' hs', h]

theorem staysBelow_congr {p' : Path} {s' : Segment} (hname : p.name? = some s) (hs : s ≠ .up)
    (hname' : p'.name? = some s') (hs' : s' ≠ .up) (h : p.parent = p'.parent) : p.StaysBelow d ↔ p'.StaysBelow d := by
  have habs : p.isAbsolute = p'.isAbsolute := by
    change p.parent.isAbsolute = p'.parent.isAbsolute
    rw [h]
  rw [StaysBelow, StaysBelow, habs, h, isBelow_congr hname hs hname' hs' h]

/-- What is put under a directory stays below it exactly if it need not leave it, or comes back. -/
theorem isBelow_join_iff (hname : q.name? = some s) (hs : s ≠ .up) : (d / q).IsBelow d ↔ q.StaysBelow d := by
  unfold StaysBelow
  cases hq : q.isAbsolute with
  | true => rw [if_pos rfl, join_of_isAbsolute hq]
  | false =>
    have hparent : (d / q).parent = d / q.parent := by
      rw [join_of_not_isAbsolute hq, join_of_not_isAbsolute (q := q.parent) hq, parent,
        List.dropLast_append_of_ne_nil (segments_ne_nil_of_name? hname)]
      rfl
    have hjoin : (d / q).name? = some s := (name?_join (segments_ne_nil_of_name? hname)).trans hname
    have hnames : ∀ s ∈ q.parent.normalize.names, s ≠ .up := isNormal_normalize q.parent
    have hdnames : ∀ s ∈ d.lexical.names, s ≠ .up := d.isNormal_lexical
    rw [if_neg Bool.false_ne_true, isBelow_iff_parent hjoin hs, hparent]
    by_cases hclimbs : d.isAbsolute ∨ q.parent.normalize.climbs ≤ d.lexical.names.length
    · -- what is left of the directory's names is kept, so that the others must come again
      rw [and_iff_right hclimbs, lexical_join_of_le (q := q.parent) hq hclimbs]
      set kept := d.lexical.names.length - q.parent.normalize.climbs
      have hsplit : d.lexical.segments =
          List.replicate d.lexical.climbs .up ++ (d.lexical.names.take kept ++ d.lexical.names.drop kept) := by
        rw [List.take_append_drop, ← d.lexical.segments_eq]
      simp only [Path.mk.injEq, true_and, hsplit, List.append_assoc, List.append_cancel_left_eq]
      constructor
      · rintro ⟨ss, -, heq⟩
        exact ⟨ss, heq.symm⟩
      · rintro ⟨ss, heq⟩
        exact ⟨ss, fun s hs ↦ hnames s (heq ▸ List.mem_append_right _ hs), heq.symm⟩
    · -- a double dot is left where the directory has its first name
      obtain ⟨hd, hlt⟩ : d.isAbsolute = false ∧ d.lexical.names.length < q.parent.normalize.climbs := by
        simpa using hclimbs
      refine iff_of_false ?_ fun h ↦ hclimbs h.1
      rintro ⟨ss, hss, heq⟩
      rw [lexical_join_of_lt (q := q.parent) hq hd hlt, d.lexical.segments_eq, List.replicate_add, List.append_assoc,
        List.append_assoc] at heq
      have hdots := List.append_cancel_left (Path.mk.inj heq).2
      have hup : Segment.up ∈ d.lexical.names ++ ss := by
        rw [← hdots]
        exact List.mem_append_left _ (List.mem_replicate.mpr ⟨by omega, rfl⟩)
      rcases List.mem_append.mp hup with hup | hup
      · exact hdnames _ hup rfl
      · exact hss _ hup rfl

theorem IsBelow.anchor_eq (h : p.IsBelow d) : p.anchor = d.anchor := by
  obtain ⟨ss, -, -, hp⟩ := h
  rw [← anchor_lexical p, hp, anchor_lexical]

/-- Followed from anywhere, a path below a directory leads below the directory. -/
theorem IsBelow.follow_eq (h : p.IsBelow d) :
    ∃ ss : Location, ss ≠ [] ∧ ∀ l : Location, l.follow p = ss ++ l.follow d := by
  obtain ⟨ss, hne, hss, hp⟩ := h
  refine ⟨ss.reverse, by simpa using hne, fun l ↦ ?_⟩
  rw [← follow_lexical p, hp, ← follow_lexical d, Location.follow, Location.follow, List.foldl_append,
    Location.foldl_step_of_ne_up hss]
  rfl

end Path

/-- The location lies below the directory. -/
def Location.IsBelow (l directory : Location) : Prop := ∃ ss : Location, ss ≠ [] ∧ l = ss ++ directory

/-- A path below a directory leads below it, whatever both are put under. -/
theorem Path.IsBelow.isBelow_place {q directory : Path} (h : q.IsBelow directory) (t : FileTree) (project : Path) :
    (t.place (project / q)).IsBelow (t.place (project / directory)) := by
  obtain ⟨ss, hne, hfollow⟩ := h.follow_eq
  have habs : q.isAbsolute = directory.isAbsolute := by rw [isAbsolute, h.anchor_eq, isAbsolute]
  refine ⟨ss, hne, ?_⟩
  rw [FileTree.place, FileTree.place, Location.follow_join, Location.follow_join, habs]
  split
  · exact hfollow _
  · exact hfollow _

end ModuleBuild
