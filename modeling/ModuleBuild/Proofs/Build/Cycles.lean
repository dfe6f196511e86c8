import ModuleBuild.Proofs.Build.Ordering

/-!
# Targets that need themselves

Goals have an order exactly if no target that they lead to needs itself, directly or through others
(`targetOrder_of_goals`). One direction follows the chain of waiting targets down to the one that is met again
(`cycle_of_place`), the other is that what a ready order lists needs only what comes before it
(`ReadyOrder.mem_of_transGen`).
-/

namespace ModuleBuild.Graph

open Relation (ReflTransGen TransGen)

/-- A target is a goal, or some goal needs it, directly or through others. -/
def Leads (g : Graph) (goals : List Path) (p : Path) : Prop :=
  ∃ goal ∈ goals, ReflTransGen g.Needs goal p

/-- Some target that the goals lead to needs itself, directly or through others. -/
def HasCycle (g : Graph) (goals : List Path) : Prop :=
  ∃ p, g.Leads goals p ∧ TransGen g.Needs p p

variable {g : Graph}

/-- A target that has no place behind others, while the targets of the chain wait for it, leads to one that
needs itself. -/
theorem cycle_of_place {e : BuildError} (chain order : List Path) (target : Path)
    (hwaiting : ∀ p ∈ chain, TransGen g.Needs p target)
    (h : g.place chain order target = .error e) :
    ∃ p, e = .circular p ∧ ReflTransGen g.Needs target p ∧ TransGen g.Needs p p := by
  induction chain, order, target using place.induct g with
  | case1 chain order target hmem =>
    rw [place, if_pos hmem] at h
    cases h
  | case2 chain order target hmem hfind =>
    rw [place_of_none hmem hfind] at h
    cases h
  | case3 chain order target hmem t hfind hchain =>
    rw [place_of_some hmem hfind, if_pos hchain] at h
    obtain rfl := Except.error.inj h
    exact ⟨target, rfl, .refl, hwaiting target hchain⟩
  | case4 chain order target hmem t hfind hchain ih =>
    rw [place_of_some hmem hfind, if_neg hchain] at h
    have hfold : t.prereqs.foldlM (g.place (target :: chain)) order = .error e := by
      rcases bind_eq_error.mp h with h | ⟨order', -, h⟩
      · exact h
      · cases h
    obtain ⟨q, hq, order', hplace⟩ := exists_mem_of_foldlM_eq_error hfold
    have htarget : g.targets.contains q := by
      by_cases htarget : g.targets.contains q
      · exact htarget
      · rw [place_of_not_contains htarget] at hplace
        cases hplace
    have hneeds : g.Needs target q := ⟨t, hfind, hq, htarget⟩
    -- the target joins those that wait, and all of them wait for what it needs
    have hwaiting' : ∀ p ∈ target :: chain, TransGen g.Needs p q := by
      intro p hp
      rcases List.mem_cons.mp hp with rfl | hp
      · exact .single hneeds
      · exact (hwaiting p hp).tail hneeds
    obtain ⟨p, he, hreach, hcycle⟩ := ih order' q hwaiting' hplace
    exact ⟨p, he, .head hneeds hreach, hcycle⟩

/-- Goals that have no order lead to a target that needs itself, or one of them is no target; and that is named. -/
theorem fault_of_targetOrder {goals : List Path} {e : BuildError} (h : g.targetOrder goals = .error e) :
    (∃ p, e = .circular p ∧ g.Leads goals p ∧ TransGen g.Needs p p) ∨
      ∃ p ∈ goals, ¬g.targets.contains p ∧ e = .unknownGoal p := by
  have hplaceGoals (goals order : List Path) (h : g.placeGoals order goals = .error e) :
      (∃ p, e = .circular p ∧ g.Leads goals p ∧ TransGen g.Needs p p) ∨
        ∃ p ∈ goals, ¬g.targets.contains p ∧ e = .unknownGoal p := by
    induction goals generalizing order with
    | nil => cases h
    | cons goal goals ih =>
      by_cases hgoal : g.targets.contains goal
      · rw [placeGoals, if_pos hgoal] at h
        rcases bind_eq_error.mp h with h | ⟨order', -, h⟩
        · obtain ⟨p, he, hreach, hcycle⟩ := cycle_of_place [] order goal (by simp) h
          exact .inl ⟨p, he, ⟨goal, List.mem_cons_self, hreach⟩, hcycle⟩
        · rcases ih order' h with ⟨p, he, ⟨root, hroot, hreach⟩, hcycle⟩ | ⟨p, hp, hundeclared, he⟩
          · exact .inl ⟨p, he, ⟨root, List.mem_cons_of_mem _ hroot, hreach⟩, hcycle⟩
          · exact .inr ⟨p, List.mem_cons_of_mem _ hp, hundeclared, he⟩
      · rw [placeGoals, if_neg hgoal] at h
        exact .inr ⟨goal, List.mem_cons_self, hgoal, (Except.error.inj h).symm⟩
  exact hplaceGoals goals [] h

/-- Goals that are targets and have no order lead to a target that needs itself, and it is named. -/
theorem cycle_of_targetOrder {goals : List Path} {e : BuildError}
    (hgoals : ∀ goal ∈ goals, g.targets.contains goal) (h : g.targetOrder goals = .error e) :
    ∃ p, e = .circular p ∧ g.Leads goals p ∧ TransGen g.Needs p p :=
  (fault_of_targetOrder h).resolve_right fun ⟨p, hp, hundeclared, _⟩ ↦ hundeclared (hgoals p hp)

namespace ReadyOrder

variable {before after : List Path} {p q : Path}

/-- What a listed target needs comes before it. -/
theorem mem_before (h : g.ReadyOrder [] (before ++ p :: after)) (hneeds : g.Needs p q) :
    q ∈ before := by
  simpa using h.of_append.2.2.2.1 q hneeds

/-- Also what a listed target needs through others comes before it. -/
theorem mem_of_transGen (h : g.ReadyOrder [] (before ++ p :: after)) (hneeds : TransGen g.Needs p q) :
    q ∈ before := by
  induction hneeds with
  | single hneeds => exact h.mem_before hneeds
  | tail _ hneeds ih => simpa using h.of_append.1.mem_of_needs ih hneeds

/-- No listed target needs itself. -/
theorem not_transGen_self {order : List Path} (h : g.ReadyOrder [] order) (hp : p ∈ order) :
    ¬TransGen g.Needs p p := by
  intro hcycle
  obtain ⟨before, after, rfl⟩ := List.append_of_mem hp
  have hnew : p ∉ before := by simpa using h.of_append.2.1
  exact hnew (h.mem_of_transGen hcycle)

end ReadyOrder

/-- Goals that have an order lead to no target that needs itself. -/
theorem not_hasCycle_of_targetOrder {goals order : List Path} (h : g.targetOrder goals = .ok order) :
    ¬g.HasCycle goals := by
  rintro ⟨p, hleads, hcycle⟩
  exact (readyOrder_of_targetOrder h).not_transGen_self ((mem_targetOrder h).mpr hleads) hcycle

/-- Goals that are targets are refused exactly if they lead to a target that needs itself, and such a target
is named. Else their order lists the targets they lead to, each of them once and after all that it needs. Only
prerequisites that are targets count. -/
theorem targetOrder_of_goals {goals : List Path} (hgoals : ∀ goal ∈ goals, g.targets.contains goal) :
    ((∃ p, g.targetOrder goals = .error (.circular p)) ↔ g.HasCycle goals) ∧
    (∀ e, g.targetOrder goals = .error e → ∃ p, e = .circular p ∧
      e.message = "Circular prerequisite: " ++ toString p ++ " depends on itself" ∧
      g.Leads goals p ∧ TransGen g.Needs p p) ∧
    (¬g.HasCycle goals → ∃ order, g.targetOrder goals = .ok order ∧ order.Nodup ∧
      (∀ p, p ∈ order ↔ g.Leads goals p) ∧
      ∀ before p after, order = before ++ p :: after → ∀ q, g.Needs p q → q ∈ before) ∧
    ∀ g' : Graph, (∀ p, g'.neededBy p = g.neededBy p) → g'.targetOrder goals = g.targetOrder goals := by
  refine ⟨⟨?_, fun hcycle ↦ ?_⟩, fun e he ↦ ?_, fun hcycle ↦ ?_,
    fun g' h ↦ targetOrder_congr h goals⟩
  · rintro ⟨p, h⟩
    obtain ⟨q, -, hleads, hcycle⟩ := cycle_of_targetOrder hgoals h
    exact ⟨q, hleads, hcycle⟩
  · cases h : g.targetOrder goals with
    | ok order => exact absurd hcycle (not_hasCycle_of_targetOrder h)
    | error e =>
      obtain ⟨p, rfl, -⟩ := cycle_of_targetOrder hgoals h
      exact ⟨p, rfl⟩
  · obtain ⟨p, rfl, hleads, hself⟩ := cycle_of_targetOrder hgoals he
    exact ⟨p, rfl, rfl, hleads, hself⟩
  · cases h : g.targetOrder goals with
    | error e =>
      obtain ⟨p, -, hleads, hself⟩ := cycle_of_targetOrder hgoals h
      exact absurd ⟨p, hleads, hself⟩ hcycle
    | ok order =>
      have hready := readyOrder_of_targetOrder h
      refine ⟨order, rfl, by simpa using hready.nodup .nil, fun p ↦ mem_targetOrder h, ?_⟩
      rintro before p after rfl q hneeds
      exact hready.mem_before hneeds

/-- An executable that is made from two archives, which are both made from a third one. -/
def diamond (prereqs : List Path) : Graph where
  targets := .ofList <| [("app", [.ofString "x.a", .ofString "y.a", .ofString "app.ld"]),
      ("x.a", [.ofString "z.a"]), ("y.a", [.ofString "z.a"]), ("z.a", prereqs)].map
    fun (name, prereqs) ↦ (.ofString name, { path := .ofString name, prereqs })

/-- The third archive must not be made from the executable. -/
theorem targetOrder_of_goals_diamond :
    ¬(diamond []).HasCycle [.ofString "app"] ∧
      (diamond [.ofString "app"]).HasCycle [.ofString "app"] := by
  constructor
  · intro hcycle
    obtain ⟨p, hp⟩ := (targetOrder_of_goals (by decide)).1.mpr hcycle
    have horder : ((diamond []).targetOrder [.ofString "app"]).toOption =
        some (["z.a", "x.a", "y.a", "app"].map .ofString) := by decide +kernel
    cases hp.symm.trans (toOption_eq_some.mp horder)
  · have horder : ((diamond [.ofString "app"]).targetOrder [.ofString "app"]).toOption = none := by
      decide +kernel
    cases h : (diamond [.ofString "app"]).targetOrder [.ofString "app"] with
    | ok order => simp [h, Except.toOption] at horder
    | error e =>
      obtain ⟨p, -, -, hcycle⟩ := (targetOrder_of_goals (by decide)).2.1 e h
      exact ⟨p, hcycle⟩

end ModuleBuild.Graph
