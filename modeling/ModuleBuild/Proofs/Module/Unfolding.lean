import ModuleBuild.Proofs.Module.Nesting

/-!
# Unfolding the module tree

The walk, told without a stack of scopes: every reference is unfolded where it stands, so that a module
occurs once for each reference to it, each time with the modules that lead there. A module contributes to
the target that it declares, else to that of the nearest module above it which declares one.

`Unfolds` relates references to their occurrences in depth-first order and to what ends the unfolding
early. References unfold in one way only (`Unfolds.unique`). Since a file tree bounds how deep modules
nest, they do unfold, and the walk visits what occurs (`walkFrom_unfolds`).
-/

namespace ModuleBuild

/-- A module where a reference leads to it, with the modules that lead there, the nearest first. -/
structure Occurrence where
  module : Module
  ancestors : List Module := []
  deriving DecidableEq, Repr

namespace Occurrence

/-- The target to which a module contributes: the one that it declares, else the one that the nearest
module above it declares. -/
def target (o : Occurrence) (targetDir : Path) : Option Path :=
  (o.module :: o.ancestors).findSome? (·.declaredTarget targetDir)

end Occurrence

namespace Module

/-- The module that a reference in `m` leads to. It must not be `m` or one of the modules above. -/
def refer (t : FileTree) (project : Path) (m : Module) (above : List Module) (reference : String) :
    Except Failure Module := do
  let path ← (submodulePath t project m.directory reference).mapError .file
  let chain := (m :: above).map (·.path)
  if path ∈ chain then .error (.cycle path chain.reverse)
  else (load t project path).mapError .ofLoad

/-- The references of `m`, a module below those of `above`, unfold to occurrences in depth-first order;
the unfolding may end early with a failure. -/
inductive Unfolds (t : FileTree) (project : Path) :
    (m : Module) → (above : List Module) → (references : List String) → List Occurrence →
      (ending : Option Failure) → Prop where
  | done {m : Module} {above : List Module} : Unfolds t project m above [] [] none
  | broken {m : Module} {above : List Module} {r : String} {rs : List String} {f : Failure}
      (h : refer t project m above r = .error f) : Unfolds t project m above (r :: rs) [] (some f)
  | cut {m child : Module} {above : List Module} {r : String} {rs : List String}
      {os : List Occurrence} {f : Failure} (h : refer t project m above r = .ok child)
      (below : Unfolds t project child (m :: above) child.submodules os (some f)) :
      Unfolds t project m above (r :: rs) (⟨child, m :: above⟩ :: os) (some f)
  | next {m child : Module} {above : List Module} {r : String} {rs : List String}
      {os os' : List Occurrence} {ending : Option Failure} (h : refer t project m above r = .ok child)
      (below : Unfolds t project child (m :: above) child.submodules os none)
      (rest : Unfolds t project m above rs os' ending) :
      Unfolds t project m above (r :: rs) (⟨child, m :: above⟩ :: os ++ os') ending

/-- References unfold in one way only. -/
theorem Unfolds.unique {t : FileTree} {project : Path} {m : Module} {above : List Module}
    {rs : List String} {os os' : List Occurrence} {ending ending' : Option Failure}
    (h : Unfolds t project m above rs os ending) (h' : Unfolds t project m above rs os' ending') :
    os' = os ∧ ending' = ending := by
  induction h generalizing os' ending' with
  | done => cases h'; exact ⟨rfl, rfl⟩
  | broken hr =>
    cases h' with
    | broken hr' => simp_all
    | cut hr' _ => simp [hr] at hr'
    | next hr' _ _ => simp [hr] at hr'
  | cut hr _ ih =>
    cases h' with
    | broken hr' => simp [hr] at hr'
    | cut hr' below' =>
      obtain rfl := Except.ok.inj (hr.symm.trans hr')
      obtain ⟨rfl, he⟩ := ih below'
      exact ⟨rfl, he⟩
    | next hr' below' _ =>
      obtain rfl := Except.ok.inj (hr.symm.trans hr')
      exact absurd (ih below').2 (by simp)
  | next hr _ _ ih ihrest =>
    cases h' with
    | broken hr' => simp [hr] at hr'
    | cut hr' below' =>
      obtain rfl := Except.ok.inj (hr.symm.trans hr')
      exact absurd (ih below').2 (by simp)
    | next hr' below' rest' =>
      obtain rfl := Except.ok.inj (hr.symm.trans hr')
      obtain ⟨rfl, -⟩ := ih below'
      obtain ⟨rfl, he⟩ := ihrest rest'
      exact ⟨rfl, he⟩

/-! ### What a reference leads to -/

/-- A module that has been loaded bears the path of its descriptor, and a file is there. -/
theorem path_of_load {t : FileTree} {project path : Path} {m : Module}
    (h : load t project path = .ok m) :
    m.path = path ∧ ∃ bytes time, t.stat (project / path) = .ok (.file bytes time) := by
  unfold load at h
  simp only [bind_eq_ok, mapError_eq_ok] at h
  obtain ⟨b, hb, h⟩ := h
  cases b with
  | false => simp at h
  | true =>
    simp only [if_true, bind_eq_ok, mapError_eq_ok] at h
    obtain ⟨bytes, -, h⟩ := h
    refine ⟨?_, FileTree.isFile_eq_true.mp hb⟩
    unfold ofBytes at h
    split at h
    next fault? ls _ =>
    split at h
    · simp at h
    · simp at h
    · next st _ _ =>
      cases hst : st.finish with
      | error fault => simp [hst] at h
      | ok document =>
        simp only [hst, Except.ok.injEq] at h
        rw [← h]
        rfl

theorem isNormal_of_submodulePath {t : FileTree} {project directory path : Path} {reference : String}
    (h : submodulePath t project directory reference = .ok path) : path.IsNormal := by
  unfold submodulePath at h
  obtain ⟨b, -, h⟩ := bind_eq_ok.mp h
  have hn := Path.isNormal_normalize (directory / Path.ofString reference)
  cases b with
  | false =>
    simp only [Bool.false_eq_true, if_false, pure_eq_ok, Except.ok.injEq] at h
    exact h ▸ hn
  | true =>
    simp only [if_true, pure_eq_ok, Except.ok.injEq] at h
    have hfile : defaultFile = ⟨.here, [⟨"module.ini", by decide +kernel⟩]⟩ := by decide +kernel
    rw [← h, hfile, Path.join_of_not_isAbsolute rfl]
    exact hn.append (by decide +kernel)

/-- A reference leads to a descriptor that is none of those above. -/
theorem refer_eq_ok {t : FileTree} {project : Path} {m child : Module} {above : List Module}
    {reference : String} (h : refer t project m above reference = .ok child) :
    IsDescriptor t project child.path ∧ child.path ∉ (m :: above).map (·.path) := by
  unfold refer at h
  simp only [bind_eq_ok, mapError_eq_ok] at h
  obtain ⟨path, hpath, h⟩ := h
  split at h
  · simp at h
  · next hnot =>
    rw [mapError_eq_ok] at h
    obtain ⟨rfl, hfile⟩ := path_of_load h
    exact ⟨⟨isNormal_of_submodulePath hpath, hfile⟩, hnot⟩

/-- References unfold to modules with descriptors. -/
theorem Unfolds.isDescriptor {t : FileTree} {project : Path} {m : Module} {above : List Module}
    {rs : List String} {os : List Occurrence} {ending : Option Failure}
    (h : Unfolds t project m above rs os ending) : ∀ o ∈ os, IsDescriptor t project o.module.path := by
  induction h with
  | done => simp
  | broken _ => simp
  | cut hr _ ih => simpa using ⟨(refer_eq_ok hr).1, ih⟩
  | next hr _ _ ih ihrest =>
    intro o ho
    rcases List.mem_append.mp ho with ho | ho
    · rcases List.mem_cons.mp ho with rfl | ho
      · exact (refer_eq_ok hr).1
      · exact ih o ho
    · exact ihrest o ho

/-- The modules above one another have different descriptors, to which references lead except for the
root. -/
structure Nested (t : FileTree) (project : Path) (lineage : List Module) : Prop where
  nodup : (lineage.map (·.path)).Nodup
  isDescriptor : ∀ m ∈ lineage.dropLast, IsDescriptor t project m.path

theorem nested_root (t : FileTree) (project : Path) (root : Module) : Nested t project [root] where
  nodup := by simp
  isDescriptor := by simp

theorem Nested.refer {t : FileTree} {project : Path} {m child : Module} {above : List Module}
    {reference : String} (hn : Nested t project (m :: above))
    (h : Module.refer t project m above reference = .ok child) :
    Nested t project (child :: m :: above) where
  nodup := by
    rw [List.map_cons, List.nodup_cons]
    exact ⟨(refer_eq_ok h).2, hn.nodup⟩
  isDescriptor := by
    intro m' hm'
    rw [List.dropLast_cons_of_ne_nil (by simp), List.mem_cons] at hm'
    rcases hm' with rfl | hm'
    · exact (refer_eq_ok h).1
    · exact hn.isDescriptor m' hm'

/-- Modules nest no deeper than the file tree allows for. -/
theorem Nested.length_le {t : FileTree} {project : Path} {lineage : List Module}
    (h : Nested t project lineage) : lineage.length ≤ maxDepth t := by
  have hsub : (lineage.dropLast.map (·.path)).Nodup :=
    ((List.dropLast_sublist lineage).map _).nodup h.nodup
  have hall : ∀ p ∈ lineage.dropLast.map (·.path), IsDescriptor t project p := by
    intro p hp
    obtain ⟨m, hm, rfl⟩ := List.mem_map.mp hp
    exact h.isDescriptor m hm
  have hle := length_le_of_descriptors hsub hall
  rw [List.length_map, List.length_dropLast] at hle
  unfold maxDepth
  omega

/-! ### The walk -/

/-- The scope of a module that is referred to from within a scope. -/
def innerScope (targetDir : Path) (scope : Scope) (m : Module) : Scope :=
  scope.enter m.path m.directory (m.declaredTarget targetDir)

/-- A scope as it is in a module below others: the chain of their descriptors, and the target that the
nearest of them declares. -/
structure InScope (targetDir : Path) (scope : Scope) (lineage : List Module) : Prop where
  modules : scope.modules.fromTop = lineage.map (·.path)
  target : scope.target = lineage.findSome? (·.declaredTarget targetDir)

theorem inScope_root (targetDir : Path) : InScope targetDir {} [] := ⟨rfl, rfl⟩

theorem InScope.enter {targetDir : Path} {scope : Scope} {lineage : List Module}
    (h : InScope targetDir scope lineage) (m : Module) :
    InScope targetDir (innerScope targetDir scope m) (m :: lineage) where
  modules := congrArg (m.path :: ·) h.modules
  target := by
    rw [innerScope, Scope.target_enter, h.target, List.findSome?_cons]
    cases m.declaredTarget targetDir <;> rfl

theorem follow_eq_refer {t : FileTree} {project targetDir : Path} {m : Module} {above : List Module}
    {scope : Scope} (h : InScope targetDir scope (m :: above)) (reference : String) :
    follow t project m scope reference = refer t project m above reference := by
  unfold follow refer
  simp only [Stack.contains, Stack.toList, h.modules, List.contains_eq_mem, decide_eq_true_eq]

/-- The visits are those of the occurrences: of the same modules, with the same targets in effect. -/
def Visited (targetDir : Path) (vs : List Visit) (os : List Occurrence) : Prop :=
  vs.map (fun v ↦ (v.module, v.target)) = os.map fun o ↦ (o.module, o.target targetDir)

theorem InScope.visited {targetDir : Path} {scope : Scope} {m : Module} {above : List Module}
    (h : InScope targetDir scope (m :: above)) : Visited targetDir [⟨m, scope⟩] [⟨m, above⟩] := by
  simpa [Visited, Visit.target, Occurrence.target] using h.target

theorem Visited.append {targetDir : Path} {vs vs' : List Visit} {os os' : List Occurrence}
    (h : Visited targetDir vs os) (h' : Visited targetDir vs' os') :
    Visited targetDir (vs ++ vs') (os ++ os') := by
  simp only [Visited, List.map_append] at *
  rw [h, h']

/-- Visits and occurrences of the same modules have the same descriptors. -/
theorem Visited.paths_eq {targetDir : Path} {vs : List Visit} {os : List Occurrence}
    (h : Visited targetDir vs os) : vs.map (·.module.path) = os.map (·.module.path) := by
  have hmodules := congrArg (List.map fun v : Module × Option Path ↦ v.1.path) h
  simpa only [List.map_map, Function.comp_def] using hmodules

/-- The walk through references, with `depth` to spare for the modules that they lead to. -/
def walkReferences (t : FileTree) (project targetDir : Path) (depth : Nat) (m : Module)
    (scope : Scope) (rs : List String) : Walk :=
  Walk.all (fun reference ↦
    Walk.onward (fun child ↦ walk t project targetDir depth child scope)
      (follow t project m scope reference)) rs

/-- A module is visited, and then its references are walked through. -/
theorem walk_succ (t : FileTree) (project targetDir : Path) (depth : Nat) (m : Module)
    (scope : Scope) :
    walk t project targetDir (depth + 1) m scope =
      .visit ⟨m, innerScope targetDir scope m⟩ fun _ ↦
        walkReferences t project targetDir depth m (innerScope targetDir scope m) m.submodules :=
  rfl

/-- If what each reference leads to is walked as it unfolds, so are the references. -/
private theorem walkReferences_of_children {t : FileTree} {project targetDir : Path} {depth : Nat}
    {m : Module} {above : List Module} {scope : Scope} (hs : InScope targetDir scope (m :: above))
    (hchild : ∀ r child, refer t project m above r = .ok child →
      ∃ os ending, Unfolds t project child (m :: above) child.submodules os ending ∧
        Visited targetDir (walk t project targetDir depth child scope).visits
          (⟨child, m :: above⟩ :: os) ∧
        (walk t project targetDir depth child scope).failure? = ending) (rs : List String) :
    ∃ os ending, Unfolds t project m above rs os ending ∧
      Visited targetDir (walkReferences t project targetDir depth m scope rs).visits os ∧
      (walkReferences t project targetDir depth m scope rs).failure? = ending := by
  induction rs with
  | nil => exact ⟨[], none, .done, rfl, rfl⟩
  | cons r rs ih =>
    simp only [walkReferences, Walk.all, Walk.visits_andThen, Walk.failure?_andThen,
      follow_eq_refer hs] at ih ⊢
    cases hr : refer t project m above r with
    | error f => exact ⟨[], some f, .broken hr, rfl, rfl⟩
    | ok child =>
      obtain ⟨os, ending, hu, hv, hf⟩ := hchild r child hr
      obtain ⟨os', ending', hu', hv', hf'⟩ := ih
      simp only [Walk.onward_ok, hf]
      cases ending with
      | some f => exact ⟨_, _, .cut hr hu, hv, rfl⟩
      | none =>
        refine ⟨_, _, .next hr hu hu', ?_, ?_⟩
        · exact hv.append hv'
        · exact hf'

/-- Walking through the references of a module visits what they unfold to. -/
theorem walkReferences_unfolds (t : FileTree) (project targetDir : Path) (depth : Nat) :
    ∀ (m : Module) (above : List Module) (scope : Scope) (rs : List String),
      Nested t project (m :: above) → InScope targetDir scope (m :: above) →
      maxDepth t ≤ depth + (m :: above).length →
      ∃ os ending, Unfolds t project m above rs os ending ∧
        Visited targetDir (walkReferences t project targetDir depth m scope rs).visits os ∧
        (walkReferences t project targetDir depth m scope rs).failure? = ending := by
  induction depth with
  | zero =>
    intro m above scope rs hn hs hd
    apply walkReferences_of_children hs
    intro r child hr
    -- so deep below the root there are no more descriptors to refer to
    have := (hn.refer hr).length_le
    simp only [List.length_cons] at this hd
    omega
  | succ depth ihd =>
    intro m above scope rs hn hs hd
    apply walkReferences_of_children hs
    intro r child hr
    have hs' := hs.enter child
    obtain ⟨os, ending, hu, hv, hf⟩ := ihd child (m :: above) _ child.submodules (hn.refer hr) hs'
      (by simp only [List.length_cons] at hd ⊢; omega)
    refine ⟨os, ending, hu, ?_, ?_⟩
    · rw [walk_succ]
      exact hs'.visited.append hv
    · rw [walk_succ]
      exact hf

/-- The walk from the root visits the root and what its references unfold to. -/
theorem walkFrom_unfolds (t : FileTree) (project targetDir : Path) (root : Module) :
    ∃ os ending, Unfolds t project root [] root.submodules os ending ∧
      Visited targetDir (root.walkFrom t project targetDir).visits (⟨root, []⟩ :: os) ∧
      (root.walkFrom t project targetDir).failure? = ending := by
  have hs := (inScope_root targetDir).enter root
  obtain ⟨os, ending, hu, hv, hf⟩ :=
    walkReferences_unfolds t project targetDir
      (3 * FileTree.maxPath * t.nodes.entries.length) root [] _ root.submodules
      (nested_root t project root) hs (by simp [maxDepth])
  refine ⟨os, ending, hu, ?_, ?_⟩
  · rw [walkFrom, maxDepth, walk_succ]
    exact hs.visited.append hv
  · rw [walkFrom, maxDepth, walk_succ]
    exact hf

end Module

end ModuleBuild
