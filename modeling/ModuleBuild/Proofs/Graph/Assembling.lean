import ModuleBuild.Proofs.Graph.Blueprint

/-!
# Assembling follows the blueprint

Taking in visits one by one keeps the assembly in step with the blueprint of the occurrences so far
(`Follows`), or fails with the fault of the next occurrence (`add_follows`). So the whole project resolves
to the graph of its blueprint (`resolve_eq`).
-/

namespace ModuleBuild

namespace Registry

/-- Declaring a target, which is empty as long as it has not been declared. -/
theorem declare_tabulate {directory : Path} {ks : List Path} (hks : ks.Nodup) {f : Path → Target} {name : String}
    (hempty : directory / Path.ofString name ∉ ks →
      f (directory / Path.ofString name) = { path := directory / Path.ofString name }) :
    (⟨directory, .tabulate ks f⟩ : Registry).declare name =
      if directory / Path.ofString name ∈ ks then .error (.declaredTwice (directory / Path.ofString name))
      else .ok ⟨directory, .tabulate (ks ++ [directory / Path.ofString name]) f⟩ := by
  simp only [declare, targetPath, contains, Table.contains, Table.find?_tabulate]
  by_cases hp : directory / Path.ofString name ∈ ks
  · simp [hp]
  · have hkeys : appendNew ks [directory / Path.ofString name] = ks ++ [directory / Path.ofString name] := by
      simp [appendNew, hp]
    simp only [hp, if_false, Option.isSome_none, Bool.false_eq_true, Table.insert_tabulate hks, hkeys]
    rw [← hempty hp, Function.update_eq_self]

/-- A target that has not been declared cannot be changed. -/
theorem update_tabulate_of_notMem (directory : Path) {ks : List Path} (f : Path → Target) {p : Path} (hp : p ∉ ks)
    (g : Target → Target) : (⟨directory, .tabulate ks f⟩ : Registry).update p g = .error (.undeclared p) := by
  have hget : (⟨directory, .tabulate ks f⟩ : Registry).get p = .error (.undeclared p) := by
    simp only [get, Table.find?_tabulate, if_neg hp]
  rw [update, hget, error_bind]

/-- Changing one of the declared targets. -/
theorem update_tabulate {directory : Path} {ks : List Path} (hks : ks.Nodup) (f : Path → Target)
    {p : Path} (hp : p ∈ ks) (g : Target → Target) :
    (⟨directory, .tabulate ks f⟩ : Registry).update p g =
      .ok ⟨directory, .tabulate ks (Function.update f p (g (f p)))⟩ := by
  have hget : (⟨directory, .tabulate ks f⟩ : Registry).get p = .ok (f p) := by
    simp only [get, Table.find?_tabulate, if_pos hp]
  have hkeep : appendNew ks [p] = ks := by simp [appendNew, hp]
  rw [update, hget, ok_bind, pure_eq_ok, Table.insert_tabulate hks, hkeep]

section Attach

variable {directory : Path} {ks : List Path} (hks : ks.Nodup) (f : Path → Target) {p : Path}
  (hp : p ∈ ks)

include hks hp

theorem attachObjects_tabulate (objects : List Path) :
    (⟨directory, .tabulate ks f⟩ : Registry).attachObjects p objects =
      .ok ⟨directory, .tabulate ks (Function.update f p ((f p).withObjects objects))⟩ :=
  update_tabulate hks f hp _

theorem attachLibs_tabulate (libs : List String) :
    (⟨directory, .tabulate ks f⟩ : Registry).attachLibs p libs =
      .ok ⟨directory, .tabulate ks (Function.update f p ((f p).withLibs libs))⟩ := by
  rw [attachLibs, update_tabulate hks f hp]
  congr 5
  by_cases h : (f p).kind = .archive
  · simp [Target.withLibs, Target.isArchive, h]
  · simp [Target.withLibs, Target.isArchive, h]

theorem attachPrereqs_tabulate (names : List String) :
    (⟨directory, .tabulate ks f⟩ : Registry).attachPrereqs p names =
      .ok ⟨directory, .tabulate ks (Function.update f p ((f p).withPrereqs directory names))⟩ := by
  have hmap : names.map (⟨directory, .tabulate ks f⟩ : Registry).targetPath =
      names.map fun name ↦ directory / Path.ofString name := rfl
  rw [attachPrereqs, update_tabulate hks f hp, hmap]
  congr 5
  by_cases h : TargetKind.ofPath (f p).path = .archive
  · simp [Target.withPrereqs, Target.isArchive, Target.kind, h]
  · by_cases hn : ∃ name ∈ names, TargetKind.ofPath (.ofString name) = .archive
    · simp [Target.withPrereqs, Target.isArchive, Target.kind, searchFlag, h, hn]
    · simp [Target.withPrereqs, Target.isArchive, Target.kind, h, hn]

end Attach

end Registry

namespace Assembly

/-- An assembly holds what a blueprint says. -/
structure Follows (a : Assembly) (b : Blueprint) : Prop where
  registry : a.registry = ⟨b.settings.targetDir, .tabulate b.declared b.targetAt⟩
  nodup : b.declared.Nodup
  buildDir : a.ownership.buildDir = b.settings.buildDir
  languages : ∀ l, l ∈ a.ownership.languages ↔ l ∈ b.records.map (·.language)
  sources : Ownership.Owned a.ownership.sources (Ownership.claims b.records)
  objects : a.objects = b.objects
  /-- What is contributed goes to targets that are declared. -/
  targets : ∀ o ∈ b.occurrences, ∀ p, o.target b.settings.targetDir = some p → p ∈ b.declared

theorem follows_start (s : Settings) : (start s).Follows { settings := s } where
  registry := rfl
  nodup := List.nodup_nil
  buildDir := rfl
  languages := by simp [start, Blueprint.records]
  sources := fun _ ↦ rfl
  objects := rfl
  targets := by simp

/-- A target that has not been declared is empty. -/
theorem Follows.targetAt_eq {a : Assembly} {b : Blueprint} (h : a.Follows b) {p : Path}
    (hp : p ∉ b.declared) : b.targetAt p = { path := p } := by
  apply Blueprint.targetAt_of_members_eq_nil
  have hnone : b.occurrences.filter (fun o ↦ o.target b.settings.targetDir = some p) = [] :=
    List.filter_eq_nil_iff.mpr fun o ho ht ↦ hp (h.targets o ho p (by simpa using ht))
  rw [Blueprint.members, hnone, List.map_nil]

/-- Declaring the target of a module fails if it has been declared before. -/
theorem Follows.declare_eq {a : Assembly} {b : Blueprint} (h : a.Follows b) (o : Occurrence) :
    a.declare o.module =
      match (o.module.declaredTarget b.settings.targetDir).filter (· ∈ b.declared) with
      | some p => .error (.registry (.declaredTwice p))
      | none => .ok { a with
          registry := ⟨b.settings.targetDir, .tabulate (b.push o).declared b.targetAt⟩ } := by
  rw [Blueprint.declared_push]
  cases hname : o.module.target with
  | none =>
    have hnone : o.module.declaredTarget b.settings.targetDir = none := by
      rw [Module.declaredTarget, hname]
      rfl
    simp only [declare, hname, hnone, Option.filter_none, Option.toList_none, List.append_nil,
      ← h.registry]
  | some name =>
    have hsome : o.module.declaredTarget b.settings.targetDir =
        some (b.settings.targetDir / Path.ofString name) := by
      rw [Module.declaredTarget, hname]
      rfl
    simp only [declare, hname, hsome, h.registry, Registry.declare_tabulate h.nodup h.targetAt_eq,
      Option.filter_some, Option.toList_some]
    by_cases hp : b.settings.targetDir / Path.ofString name ∈ b.declared
    · simp [hp]
    · simp [hp]

/-- Contributing to a declared target adds to it what the module says. -/
theorem contribute_eq {a : Assembly} {b : Blueprint} {v : Visit} {o : Occurrence}
    (hr : a.registry = ⟨b.settings.targetDir, .tabulate (b.push o).declared b.targetAt⟩)
    (hn : (b.push o).declared.Nodup) (hm : v.module = o.module)
    (ht : v.target = o.target b.settings.targetDir)
    (hd : ∀ p, o.target b.settings.targetDir = some p → p ∈ (b.push o).declared) :
    a.contribute v ((o.module.records b.settings.buildDir).map (·.path)) =
      .ok { a with
        registry := ⟨b.settings.targetDir, .tabulate (b.push o).declared (b.push o).targetAt⟩ } := by
  unfold contribute
  rw [ht, hm]
  cases htarget : o.target b.settings.targetDir with
  | none =>
    have hsame : (b.push o).targetAt = b.targetAt :=
      funext fun p ↦ b.targetAt_push_of_ne o (by simp [htarget])
    rw [hsame, ← hr]
  | some p =>
    have hp := hd p htarget
    have hpush : (b.push o).targetAt = Function.update b.targetAt p ((b.push o).targetAt p) := by
      funext q
      by_cases hq : q = p
      · rw [hq, Function.update_self]
      · rw [Function.update_of_ne hq]
        exact b.targetAt_push_of_ne o (by simp [htarget, Ne.symm hq])
    simp only [hr, Registry.attachObjects_tabulate hn _ hp, Registry.attachLibs_tabulate hn _ hp,
      Registry.attachPrereqs_tabulate hn _ hp, mapError_ok, ok_bind, pure_eq_ok,
      Function.update_idem, Function.update_self]
    rw [hpush, b.targetAt_push o htarget]

/-- Taking in a visit fails with the fault of its occurrence, or keeps in step with the blueprint. -/
theorem Follows.add_eq {a : Assembly} {b : Blueprint} (h : a.Follows b) {v : Visit} {o : Occurrence}
    (hm : v.module = o.module) (ht : v.target = o.target b.settings.targetDir)
    (hd : ∀ p, o.target b.settings.targetDir = some p → p ∈ (b.push o).declared) :
    match b.faultOf o with
    | some f => a.add v = .error f
    | none => ∃ a', a.add v = .ok a' ∧ a'.Follows (b.push o) := by
  rw [add, hm, h.declare_eq o, Blueprint.faultOf]
  cases hagain : (o.module.declaredTarget b.settings.targetDir).filter (· ∈ b.declared) with
  | some p => rfl
  | none =>
    simp only [ok_bind, collect]
    by_cases hunsupported : o.module.unsupported = []
    · rw [if_pos hunsupported, Ownership.collect_eq hunsupported, h.buildDir]
      have hclaim := Ownership.claim_eq o.module h.sources
        (Ownership.claims (o.module.records b.settings.buildDir))
      cases hclash : Ownership.clash? o.module (Ownership.claims b.records)
          (Ownership.claims (o.module.records b.settings.buildDir)) with
      | some e =>
        simp only [hclash] at hclaim
        simp only [hclaim, Option.map_some]
        rfl
      | none =>
        simp only [hclash] at hclaim
        obtain ⟨owners, hclaim, howned⟩ := hclaim
        have hnodup : (b.push o).declared.Nodup := by
          rw [Blueprint.declared_push]
          cases htarget : o.module.declaredTarget b.settings.targetDir with
          | none => simpa using h.nodup
          | some p =>
            have hnew : p ∉ b.declared := by simpa [htarget] using hagain
            rw [Option.toList_some, List.nodup_append]
            refine ⟨h.nodup, List.nodup_singleton p, fun q hq q' hq' hqq ↦ hnew ?_⟩
            rw [← List.mem_singleton.mp hq', ← hqq]
            exact hq
        simp only [hclaim, mapError_ok, ok_bind, pure_eq_ok, Option.map_none]
        refine ⟨_, contribute_eq rfl hnodup hm ht hd, rfl, hnodup, rfl, ?_, ?_, ?_, ?_⟩
        · intro l
          rw [mem_appendNew, h.languages, Blueprint.records_push, List.map_append, List.mem_append]
        · rw [Blueprint.records_push, Ownership.claims, List.map_append]
          exact howned
        · rw [Blueprint.objects_push, ← h.objects]
        · intro o' ho' p hp
          rcases List.mem_append.mp ho' with ho' | ho'
          · rw [Blueprint.declared_push]
            exact List.mem_append_left _ (h.targets o' ho' p hp)
          · obtain rfl := List.mem_singleton.mp ho'
            exact hd p hp
    · rw [if_neg hunsupported, Ownership.collect_of_unsupported hunsupported]
      rfl

/-- Every occurrence stands behind its ancestors, up to the modules `above` all of them. -/
def Ordered (above : List Module) : List Occurrence → Prop
  | [] => True
  | o :: os => (∀ m ∈ o.ancestors, m ∈ above) ∧ Ordered (o.module :: above) os

theorem Ordered.mono {above above' : List Module} {os : List Occurrence} (h : Ordered above os)
    (hsub : ∀ m ∈ above, m ∈ above') : Ordered above' os := by
  induction os generalizing above above' with
  | nil => trivial
  | cons o os ih =>
    refine ⟨fun m hm ↦ hsub m (h.1 m hm), ih h.2 ?_⟩
    intro m hm
    rcases List.mem_cons.mp hm with rfl | hm
    · exact List.mem_cons_self
    · exact List.mem_cons_of_mem _ (hsub m hm)

theorem Ordered.append {above : List Module} {os os' : List Occurrence} (h : Ordered above os)
    (h' : Ordered above os') : Ordered above (os ++ os') := by
  induction os generalizing above with
  | nil => exact h'
  | cons o os ih => exact ⟨h.1, ih h.2 (h'.mono fun m hm ↦ List.mem_cons_of_mem _ hm)⟩

theorem ordered_of_unfolds {t : FileTree} {project : Path} {m : Module} {above : List Module}
    {rs : List String} {os : List Occurrence} {ending : Option Failure}
    (h : Module.Unfolds t project m above rs os ending) : Ordered (m :: above) os := by
  induction h with
  | done => trivial
  | broken => trivial
  | cut _ _ ih => exact ⟨fun m hm ↦ hm, ih⟩
  | next _ _ _ ih ihrest =>
    exact Ordered.append ⟨fun m hm ↦ hm, ih⟩ ihrest

/-- Taking in the visits of occurrences fails with their first fault, or ends in step with the
blueprint. -/
theorem Follows.addAll_eq {a : Assembly} {b : Blueprint} (h : a.Follows b) {vs : List Visit}
    {os : List Occurrence} (hv : Module.Visited b.settings.targetDir vs os)
    (ho : Ordered (b.occurrences.map (·.module)).reverse os) :
    match b.firstFault? os with
    | some f => a.addAll vs = .error f
    | none => ∃ a', a.addAll vs = .ok a' ∧
        a'.Follows { b with occurrences := b.occurrences ++ os } := by
  induction os generalizing a b vs with
  | nil =>
    obtain rfl : vs = [] := by simpa [Module.Visited] using hv
    exact ⟨a, rfl, by simpa using h⟩
  | cons o os ih =>
    obtain ⟨v, vs', rfl, hm, ht, hvs⟩ : ∃ v vs', vs = v :: vs' ∧ v.module = o.module ∧
        v.target = o.target b.settings.targetDir ∧ Module.Visited b.settings.targetDir vs' os := by
      cases vs with
      | nil => simp [Module.Visited] at hv
      | cons v vs' =>
        simp only [Module.Visited, List.map_cons, List.cons.injEq, Prod.mk.injEq] at hv
        exact ⟨v, vs', rfl, hv.1.1, hv.1.2, hv.2⟩
    have hd : ∀ p, o.target b.settings.targetDir = some p → p ∈ (b.push o).declared := by
      intro p hp
      obtain ⟨m, hmem, hdeclares⟩ := List.exists_of_findSome?_eq_some hp
      rw [Blueprint.declared_push]
      rcases List.mem_cons.mp hmem with rfl | hmem
      · exact List.mem_append_right _ (by simp [hdeclares])
      · obtain ⟨o', ho', rfl⟩ := List.mem_map.mp (List.mem_reverse.mp (ho.1 m hmem))
        exact List.mem_append_left _ (List.mem_filterMap.mpr ⟨o', ho', hdeclares⟩)
    have hadd := h.add_eq hm ht hd
    rw [Blueprint.firstFault?, addAll]
    cases hfault : b.faultOf o with
    | some f =>
      simp only [hfault] at hadd
      simp [hadd]
    | none =>
      simp only [hfault] at hadd
      obtain ⟨a', hadd, hfollows⟩ := hadd
      have hrest := ih hfollows hvs (by simpa [Blueprint.push] using ho.2)
      rw [hadd, ok_bind]
      simpa [Blueprint.push] using hrest

end Assembly

end ModuleBuild
