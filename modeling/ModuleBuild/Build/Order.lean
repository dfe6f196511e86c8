import ModuleBuild.Build.Error
import ModuleBuild.Graph.Basic

/-!
# The order of targets

Targets are made after the targets they need. Goals are placed in the order in which they are given, and
before each target what it needs. A prerequisite that is no target of the graph has no place.
-/

namespace ModuleBuild.Graph

/-- How many targets are not on a chain of targets that need each other. -/
def offChain (g : Graph) (chain : List Path) : Nat :=
  (g.targets.keys.filter (· ∉ chain)).length

private theorem filter_length_lt {α : Type} {p q : α → Bool} {xs : List α} {x : α} (hx : x ∈ xs)
    (hp : p x = true) (hq : q x = false) (h : ∀ y, q y = true → p y = true) :
    (xs.filter q).length < (xs.filter p).length := by
  induction xs with
  | nil => simp at hx
  | cons y ys ih =>
    have hle : (ys.filter q).length ≤ (ys.filter p).length := by
      rw [← List.countP_eq_length_filter, ← List.countP_eq_length_filter]
      exact List.countP_mono_left fun z _ hz ↦ h z hz
    by_cases hxy : x = y
    · subst hxy
      simp [hp, hq]
      omega
    · have hx : x ∈ ys := by simpa [hxy] using hx
      have := ih hx
      cases hqy : q y
      · cases hpy : p y <;> simp [hqy, hpy] <;> omega
      · simp [hqy, h y hqy]; omega

/-- A target that joins the chain is no longer off it. -/
theorem offChain_cons_lt {g : Graph} {chain : List Path} {target : Path}
    (ht : g.targets.contains target) (hc : target ∉ chain) :
    g.offChain (target :: chain) < g.offChain chain :=
  filter_length_lt ((Table.contains_iff_mem_keys ..).mp ht) (by simpa using hc) (by simp)
    (fun y hy ↦ by simp_all)

/-- Place a target behind those that are in order already, after the targets it needs. The targets of
`chain` wait for it; if it is one of them, it needs itself. -/
def place (g : Graph) (chain order : List Path) (target : Path) :
    Except BuildError (List Path) :=
  if target ∈ order then .ok order
  else
    match _found : g.targets.find? target with
    | none => .ok order
    | some t =>
      if _new : target ∈ chain then .error (.circular target)
      else do
        let order ← t.prereqs.foldlM (g.place (target :: chain)) order
        return order ++ [target]
termination_by g.offChain chain
decreasing_by
  exact offChain_cons_lt (by simp [Table.contains, _found]) _new

/-- Place goals behind the targets that are in order already. Every goal must be a target. -/
def placeGoals (g : Graph) (order : List Path) : List Path → Except BuildError (List Path)
  | [] => .ok order
  | goal :: goals => do
    if g.targets.contains goal then
      let order ← g.place [] order goal
      g.placeGoals order goals
    else .error (.unknownGoal goal)

/-- The goals and all targets they need, each after those that it needs. -/
def targetOrder (g : Graph) (goals : List Path) : Except BuildError (List Path) :=
  g.placeGoals [] goals

end ModuleBuild.Graph
