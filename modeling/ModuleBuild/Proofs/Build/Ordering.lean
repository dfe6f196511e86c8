import ModuleBuild.Build.Order
import ModuleBuild.Proofs.Answers
import Mathlib.Logic.Relation

/-!
# The order of targets is ready

An order of targets is ready if each target comes once, and after every target that it needs. The order of
a build is ready, and lists the goals and what they need, directly or through others
(`readyOrder_of_targetOrder`, `mem_targetOrder`).
-/

namespace ModuleBuild.Graph

/-- A target needs another target of the graph, which is among its prerequisites. -/
def Needs (g : Graph) (p q : Path) : Prop :=
  ∃ t, g.targets.find? p = some t ∧ q ∈ t.prereqs ∧ g.targets.contains q

/-- Each of the listed targets is new when its turn comes, and those that it needs are done. -/
def ReadyOrder (g : Graph) : (done : List Path) → List Path → Prop
  | _, [] => True
  | done, p :: ps =>
    p ∉ done ∧ g.targets.contains p ∧ (∀ q, g.Needs p q → q ∈ done) ∧ g.ReadyOrder (done ++ [p]) ps

namespace ReadyOrder

variable {g : Graph} {done ps qs : List Path} {p : Path}

theorem append (h : g.ReadyOrder done ps) (h' : g.ReadyOrder (done ++ ps) qs) :
    g.ReadyOrder done (ps ++ qs) := by
  induction ps generalizing done with
  | nil => simpa using h'
  | cons p ps ih =>
    obtain ⟨hnew, htarget, hneeds, hrest⟩ := h
    exact ⟨hnew, htarget, hneeds, ih hrest (by simpa using h')⟩

/-- A part of a ready order is ready when what comes before it is done. -/
theorem of_append (h : g.ReadyOrder done (ps ++ qs)) :
    g.ReadyOrder done ps ∧ g.ReadyOrder (done ++ ps) qs := by
  induction ps generalizing done with
  | nil => exact ⟨trivial, by simpa using h⟩
  | cons p ps ih =>
    obtain ⟨hnew, htarget, hneeds, hrest⟩ := h
    obtain ⟨hfirst, hlast⟩ := ih hrest
    exact ⟨⟨hnew, htarget, hneeds, hfirst⟩, by simpa using hlast⟩

/-- No target is listed twice, or listed and done. -/
theorem nodup (h : g.ReadyOrder done ps) (hd : done.Nodup) : (done ++ ps).Nodup := by
  induction ps generalizing done with
  | nil => simpa using hd
  | cons p ps ih =>
    obtain ⟨hnew, -, -, hrest⟩ := h
    have hd' : (done ++ [p]).Nodup :=
      List.nodup_append.mpr ⟨hd, by simp, fun q hq r hr hqr ↦
        hnew (List.mem_singleton.mp hr ▸ hqr ▸ hq)⟩
    simpa using ih hrest hd'

/-- What is listed is not done. -/
theorem notMem_done (h : g.ReadyOrder done ps) (hp : p ∈ ps) : p ∉ done := by
  induction ps generalizing done with
  | nil => simp at hp
  | cons p' ps ih =>
    obtain ⟨hnew, -, -, hrest⟩ := h
    rcases List.mem_cons.mp hp with rfl | hp
    · exact hnew
    · exact fun hmem ↦ ih hrest hp (List.mem_append_left _ hmem)

/-- A target whose turn it is needs none of those that are listed. -/
theorem not_needs (h : g.ReadyOrder done (p :: ps)) {q : Path} (hq : q ∈ p :: ps) : ¬g.Needs p q :=
  fun hneeds ↦ h.notMem_done hq (h.2.2.1 q hneeds)

/-- No listed target needs one that is listed after it. -/
theorem pairwise_not_needs (h : g.ReadyOrder done ps) : ps.Pairwise fun p q ↦ ¬g.Needs p q := by
  induction ps generalizing done with
  | nil => exact .nil
  | cons p ps ih =>
    exact .cons (fun q hq ↦ h.not_needs (List.mem_cons_of_mem p hq)) (ih h.2.2.2)

theorem isTarget (h : g.ReadyOrder done ps) : ∀ p ∈ ps, g.targets.contains p := by
  induction ps generalizing done with
  | nil => simp
  | cons p ps ih =>
    obtain ⟨-, htarget, -, hrest⟩ := h
    intro q hq
    rcases List.mem_cons.mp hq with rfl | hq
    · exact htarget
    · exact ih hrest q hq

/-- What a listed target needs is listed or done. -/
theorem mem_of_needs (h : g.ReadyOrder done ps) {q : Path} (hp : p ∈ ps) (hneeds : g.Needs p q) :
    q ∈ done ∨ q ∈ ps := by
  induction ps generalizing done with
  | nil => simp at hp
  | cons p' ps ih =>
    obtain ⟨-, -, hready, hrest⟩ := h
    rcases List.mem_cons.mp hp with rfl | hp
    · exact .inl (hready q hneeds)
    · rcases ih hrest hp with hq | hq
      · rcases List.mem_append.mp hq with hq | hq
        · exact .inl hq
        · exact .inr (List.mem_singleton.mp hq ▸ List.mem_cons_self)
      · exact .inr (List.mem_cons_of_mem _ hq)

end ReadyOrder

/-- An order is continued by targets that are ready, none of them on the chain and all of them needed for
some roots, and then holds every root that is a target. -/
structure Places (g : Graph) (chain order roots order' : List Path) : Prop where
  exists_new : ∃ new, order' = order ++ new ∧ g.ReadyOrder order new ∧ (∀ p ∈ new, p ∉ chain) ∧
    ∀ p ∈ new, ∃ root ∈ roots, g.targets.contains root ∧ Relation.ReflTransGen g.Needs root p
  root_mem : ∀ root ∈ roots, g.targets.contains root → root ∈ order'

namespace Places

variable {g : Graph} {chain order order' order'' roots : List Path} {root : Path}

theorem of_mem (h : ∀ root ∈ roots, g.targets.contains root → root ∈ order) :
    g.Places chain order roots order where
  exists_new := ⟨[], by simp, trivial, by simp, by simp⟩
  root_mem := h

theorem subset (h : g.Places chain order roots order') : order ⊆ order' := by
  obtain ⟨new, rfl, -, -⟩ := h.exists_new
  exact List.subset_append_left ..

theorem cons (h : g.Places chain order [root] order') (h' : g.Places chain order' roots order'') :
    g.Places chain order (root :: roots) order'' where
  exists_new := by
    obtain ⟨new, rfl, hready, hchain, hroot⟩ := h.exists_new
    obtain ⟨new', rfl, hready', hchain', hroot'⟩ := h'.exists_new
    refine ⟨new ++ new', by simp, hready.append hready', fun p hp ↦ ?_, fun p hp ↦ ?_⟩
    · exact (List.mem_append.mp hp).elim (hchain p) (hchain' p)
    · rcases List.mem_append.mp hp with hp | hp
      · obtain ⟨r, hr, hreach⟩ := hroot p hp
        exact ⟨r, List.mem_singleton.mp hr ▸ List.mem_cons_self, hreach⟩
      · obtain ⟨r, hr, hreach⟩ := hroot' p hp
        exact ⟨r, List.mem_cons_of_mem _ hr, hreach⟩
  root_mem := by
    intro r hr htarget
    rcases List.mem_cons.mp hr with rfl | hr
    · exact h'.subset (h.root_mem r (by simp) htarget)
    · exact h'.root_mem r hr htarget

/-- Behind what it needs a target can be placed itself. -/
theorem concat {target : Path} {t : Target} (hfind : g.targets.find? target = some t)
    (hnew : target ∉ order) (hchain : target ∉ chain)
    (h : g.Places (target :: chain) order t.prereqs order') :
    g.Places chain order [target] (order' ++ [target]) where
  exists_new := by
    obtain ⟨new, rfl, hready, hoff, hroot⟩ := h.exists_new
    have htarget : g.targets.contains target := by simp [Table.contains, hfind]
    have hself : target ∉ new := fun hmem ↦ hoff target hmem List.mem_cons_self
    refine ⟨new ++ [target], by simp, hready.append ⟨by simp [hnew, hself], htarget, ?_, trivial⟩,
      fun p hp ↦ ?_, fun p hp ↦ ?_⟩
    · rintro q ⟨t', hfind', hq, hqtarget⟩
      obtain rfl := Option.some.inj (hfind.symm.trans hfind')
      exact h.root_mem q hq hqtarget
    · rcases List.mem_append.mp hp with hp | hp
      · exact fun hmem ↦ hoff p hp (List.mem_cons_of_mem _ hmem)
      · exact List.mem_singleton.mp hp ▸ hchain
    · refine ⟨target, by simp, htarget, ?_⟩
      rcases List.mem_append.mp hp with hp | hp
      · obtain ⟨q, hq, hqtarget, hreach⟩ := hroot p hp
        exact .head ⟨t, hfind, hq, hqtarget⟩ hreach
      · exact List.mem_singleton.mp hp ▸ .refl
  root_mem := by simp

end Places

/-- What is no target of the graph has no place. -/
theorem place_of_none {g : Graph} {chain order : List Path} {target : Path} (hnew : target ∉ order)
    (hfind : g.targets.find? target = none) : g.place chain order target = .ok order := by
  rw [place, if_neg hnew]
  split
  · rfl
  · next hfind' => simp [hfind] at hfind'

/-- A target is placed after what it needs, unless it is waiting itself. -/
theorem place_of_some {g : Graph} {chain order : List Path} {target : Path} {t : Target}
    (hnew : target ∉ order) (hfind : g.targets.find? target = some t) :
    g.place chain order target =
      if target ∈ chain then .error (.circular target)
      else do return (← t.prereqs.foldlM (g.place (target :: chain)) order) ++ [target] := by
  rw [place, if_neg hnew]
  split
  · next hfind' => simp [hfind] at hfind'
  · next t' hfind' =>
    obtain rfl := Option.some.inj (hfind.symm.trans hfind')
    by_cases hchain : target ∈ chain
    · rw [dif_pos hchain, if_pos hchain]
    · rw [dif_neg hchain, if_neg hchain]

/-- Placing a target behind others places what it needs before it. -/
theorem places_place {g : Graph} (chain order : List Path) (target : Path) :
    ∀ order', g.place chain order target = .ok order' → g.Places chain order [target] order' := by
  induction chain, order, target using place.induct g with
  | case1 chain order target hmem =>
    intro order' h
    rw [place, if_pos hmem] at h
    obtain rfl := Except.ok.inj h
    exact .of_mem fun r hr _ ↦ List.mem_singleton.mp hr ▸ hmem
  | case2 chain order target hmem hfind =>
    intro order' h
    rw [place_of_none hmem hfind] at h
    obtain rfl := Except.ok.inj h
    refine .of_mem fun r hr htarget ↦ ?_
    rw [List.mem_singleton.mp hr, Table.contains, hfind] at htarget
    simp at htarget
  | case3 chain order target hmem t hfind hchain =>
    intro order' h
    rw [place_of_some hmem hfind, if_pos hchain] at h
    simp at h
  | case4 chain order target hmem t hfind hchain ih =>
    intro order' h
    rw [place_of_some hmem hfind, if_neg hchain] at h
    obtain ⟨order₁, hfold, hconcat⟩ := bind_eq_ok.mp h
    obtain rfl := Except.ok.inj hconcat
    refine .concat hfind hmem hchain ?_
    clear hmem h hconcat hfind
    -- the prerequisites are placed one after another, each as the induction says
    generalize t.prereqs = prereqs at hfold ⊢
    induction prereqs generalizing order with
    | nil =>
      obtain rfl := Except.ok.inj hfold
      exact .of_mem (by simp)
    | cons q qs ihq =>
      rw [List.foldlM_cons] at hfold
      obtain ⟨order₂, hplace, hrest⟩ := bind_eq_ok.mp hfold
      exact (ih order q order₂ hplace).cons (ihq order₂ hrest)

theorem places_placeGoals {g : Graph} {order order' goals : List Path}
    (h : g.placeGoals order goals = .ok order') :
    g.Places [] order goals order' ∧ ∀ goal ∈ goals, g.targets.contains goal := by
  induction goals generalizing order with
  | nil =>
    obtain rfl := Except.ok.inj h
    exact ⟨.of_mem (by simp), by simp⟩
  | cons goal goals ih =>
    rw [placeGoals] at h
    split at h
    · next htarget =>
      obtain ⟨order₁, hplace, hrest⟩ := bind_eq_ok.mp h
      obtain ⟨hplaces, htargets⟩ := ih hrest
      refine ⟨(places_place [] order goal order₁ hplace).cons hplaces, fun p hp ↦ ?_⟩
      rcases List.mem_cons.mp hp with rfl | hp
      · exact htarget
      · exact htargets p hp
    · simp at h

/-- The order of a build is ready. -/
theorem readyOrder_of_targetOrder {g : Graph} {goals order : List Path}
    (h : g.targetOrder goals = .ok order) : g.ReadyOrder [] order := by
  obtain ⟨new, rfl, hready, -, -⟩ := (places_placeGoals h).1.exists_new
  simpa using hready

/-- The order of a build lists the goals and the targets that they need, directly or through others. -/
theorem mem_targetOrder {g : Graph} {goals order : List Path} (h : g.targetOrder goals = .ok order)
    {p : Path} : p ∈ order ↔ ∃ goal ∈ goals, Relation.ReflTransGen g.Needs goal p := by
  obtain ⟨hplaces, htargets⟩ := places_placeGoals h
  constructor
  · intro hp
    obtain ⟨new, rfl, -, -, hroot⟩ := hplaces.exists_new
    obtain ⟨goal, hgoal, -, hreach⟩ := hroot p (by simpa using hp)
    exact ⟨goal, hgoal, hreach⟩
  · rintro ⟨goal, hgoal, hreach⟩
    have hready := readyOrder_of_targetOrder h
    induction hreach with
    | refl => exact hplaces.root_mem goal hgoal (htargets goal hgoal)
    | tail _ hneeds ih => simpa using hready.mem_of_needs ih hneeds

/-- What a target needs, in the order in which it names them. What is no target needs nothing, and is
needed by none. -/
def neededBy (g : Graph) (p : Path) : Option (List Path) :=
  (g.targets.find? p).map fun t ↦ t.prereqs.filter g.targets.contains

theorem neededBy_of_some {g : Graph} {p : Path} {t : Target} (hfind : g.targets.find? p = some t) :
    g.neededBy p = some (t.prereqs.filter g.targets.contains) := by
  rw [neededBy, hfind, Option.map_some]

theorem isSome_neededBy (g : Graph) (p : Path) : (g.neededBy p).isSome = g.targets.contains p := by
  rw [neededBy, Option.isSome_map, Table.contains]

/-- What is no target of the graph changes no order. -/
theorem place_of_not_contains {g : Graph} {chain order : List Path} {target : Path}
    (h : ¬g.targets.contains target) : g.place chain order target = .ok order := by
  by_cases hmem : target ∈ order
  · rw [place, if_pos hmem]
  · refine place_of_none hmem ?_
    simpa [Table.contains] using h

/-- Prerequisites that are no targets are passed over. -/
theorem foldlM_place_filter (g : Graph) (chain order prereqs : List Path) :
    (prereqs.filter g.targets.contains).foldlM (g.place chain) order =
      prereqs.foldlM (g.place chain) order := by
  induction prereqs generalizing order with
  | nil => rfl
  | cons q qs ih =>
    by_cases hq : g.targets.contains q
    · rw [List.filter_cons_of_pos hq, List.foldlM_cons, List.foldlM_cons]
      exact congrArg _ (funext ih)
    · rw [List.filter_cons_of_neg hq, List.foldlM_cons, place_of_not_contains hq, ok_bind, ih]

section Congruence

variable {g g' : Graph}

/-- Where a target is placed hangs on nothing but what each target needs. -/
theorem place_congr (h : ∀ p, g'.neededBy p = g.neededBy p) (chain order : List Path)
    (target : Path) : g'.place chain order target = g.place chain order target := by
  induction chain, order, target using place.induct g with
  | case1 chain order target hmem => rw [place, place, if_pos hmem, if_pos hmem]
  | case2 chain order target hmem hfind =>
    have hfind' : g'.targets.find? target = none := by
      simpa [neededBy, hfind] using h target
    rw [place_of_none hmem hfind, place_of_none hmem hfind']
  | case3 chain order target hmem t hfind hchain =>
    obtain ⟨t', hfind', -⟩ := Option.map_eq_some_iff.mp ((h target).trans (neededBy_of_some hfind))
    rw [place_of_some hmem hfind, place_of_some hmem hfind', if_pos hchain, if_pos hchain]
  | case4 chain order target hmem t hfind hchain ih =>
    obtain ⟨t', hfind', hprereqs⟩ :=
      Option.map_eq_some_iff.mp ((h target).trans (neededBy_of_some hfind))
    have hplace : g'.place (target :: chain) = g.place (target :: chain) :=
      funext fun order ↦ funext fun q ↦ ih order q
    rw [place_of_some hmem hfind, place_of_some hmem hfind', if_neg hchain, if_neg hchain,
      ← foldlM_place_filter g, ← foldlM_place_filter g', hprereqs, hplace]

/-- The order of targets hangs on nothing but what each target needs. -/
theorem targetOrder_congr (h : ∀ p, g'.neededBy p = g.neededBy p) (goals : List Path) :
    g'.targetOrder goals = g.targetOrder goals := by
  have hcontains (p : Path) : g'.targets.contains p = g.targets.contains p := by
    rw [← isSome_neededBy, h, isSome_neededBy]
  have hplaceGoals (order : List Path) : g'.placeGoals order goals = g.placeGoals order goals := by
    induction goals generalizing order with
    | nil => rfl
    | cons goal goals ih => simp only [placeGoals, place_congr h, hcontains, ih]
  exact hplaceGoals []

end Congruence

/-- The order of targets does not hang on headers. -/
theorem targetOrder_headers (g : Graph) (headers : Table Path (List Path)) (goals : List Path) :
    ({ g with headers } : Graph).targetOrder goals = g.targetOrder goals :=
  have hneeded (p : Path) : ({ g with headers } : Graph).neededBy p = g.neededBy p := rfl
  targetOrder_congr hneeded goals

end ModuleBuild.Graph
