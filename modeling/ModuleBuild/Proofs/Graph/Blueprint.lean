import ModuleBuild.Graph.Resolution
import ModuleBuild.Proofs.Module.Unfolding
import ModuleBuild.Proofs.Source.Collection
import ModuleBuild.Proofs.Target.Collected

/-!
# Blueprints

The build graph of a project read off from the occurrences of its modules, with no registry, ownership or
scope: a target has what the modules say that contribute to it, first occurrences in depth-first order.
`Blueprint.graph` is that graph, `Blueprint.fault?` is what keeps a project from having it.
-/

namespace ModuleBuild

/-- The modules of a project where references lead to them, and the settings in effect. -/
structure Blueprint where
  settings : Settings
  occurrences : List Occurrence := []

namespace Blueprint

/-- The targets that are declared. -/
def declared (b : Blueprint) : List Path :=
  b.occurrences.filterMap (·.module.declaredTarget b.settings.targetDir)

/-- The modules that contribute to a target. -/
def members (b : Blueprint) (p : Path) : List Module :=
  (b.occurrences.filter fun o ↦ o.target b.settings.targetDir = some p).map (·.module)

/-- The records of all objects, one for each time that a module lists a source. -/
def records (b : Blueprint) : List ObjectRecord :=
  b.occurrences.flatMap fun o ↦ o.module.records b.settings.buildDir

/-- The objects of a target. -/
def objectsOf (b : Blueprint) (p : Path) : List Path :=
  ((b.members p).flatMap fun m ↦ (m.records b.settings.buildDir).map (·.path)).eraseDups

/-- The prerequisites of a target. -/
def prereqsOf (b : Blueprint) (p : Path) : List Path :=
  ((b.members p).flatMap fun m ↦
    m.prereqs.map fun name ↦ b.settings.targetDir / Path.ofString name).eraseDups

/-- The libraries of a target. An archive has none. -/
def libsOf (b : Blueprint) (p : Path) : List String :=
  match TargetKind.ofPath p with
  | .archive => []
  | .executable => ((b.members p).flatMap (·.libs)).eraseDups

/-- The linker flags of a target: an executable that needs an archive looks for libraries in the directory
of targets. -/
def ldflagsOf (b : Blueprint) (p : Path) : List String :=
  match TargetKind.ofPath p with
  | .archive => []
  | .executable =>
    if ∃ m ∈ b.members p, ∃ name ∈ m.prereqs, TargetKind.ofPath (.ofString name) = .archive then
      ["-L" ++ toString b.settings.targetDir]
    else []

/-- The target at a path. -/
def targetAt (b : Blueprint) (p : Path) : Target where
  path := p
  objects := b.objectsOf p
  prereqs := b.prereqsOf p
  libs := b.libsOf p
  ldflags := b.ldflagsOf p

/-- The objects in the order in which they come first, each with the record that comes last. -/
def objects (b : Blueprint) : Table Path ObjectRecord := .ofList (b.records.map fun r ↦ (r.path, r))

/-- The linker, which a C++ source anywhere in the project decides. -/
def linker (b : Blueprint) : SettingValue :=
  b.settings.linker (b.records.any (·.language = .cxx))

/-- The action that compiles an object, by the rule for its suffix. -/
def compileAction (b : Blueprint) (r : ObjectRecord) : CompileAction where
  object := r
  command := b.settings.compileCommand ⟨r.source.suffix, r.language, b.settings.compiler r.language⟩ r

/-- The build graph, without headers. -/
def graph (b : Blueprint) : Graph where
  linker := b.linker
  targets := .tabulate b.declared b.targetAt
  objects := b.objects
  compileRules := b.settings.compileRules
  compileActions := ⟨b.objects.entries.map fun e ↦ (e.1, b.compileAction e.2)⟩
  targetActions := .tabulate b.declared fun p ↦ b.settings.targetAction b.linker (b.targetAt p)

/-- What is wrong with an occurrence behind those of the blueprint: it declares a target again, lists
sources in no known language, or lists a source whose object another source has. -/
def faultOf (b : Blueprint) (o : Occurrence) : Option Failure :=
  match (o.module.declaredTarget b.settings.targetDir).filter (· ∈ b.declared) with
  | some p => some (.registry (.declaredTwice p))
  | none =>
    if o.module.unsupported = [] then
      (Ownership.clash? o.module (Ownership.claims b.records)
        (Ownership.claims (o.module.records b.settings.buildDir))).map .source
    else some (.source (.unsupported o.module.path o.module.unsupported))

/-- The blueprint with one more occurrence. -/
def push (b : Blueprint) (o : Occurrence) : Blueprint :=
  { b with occurrences := b.occurrences ++ [o] }

/-- The first fault among occurrences behind those of the blueprint. -/
def firstFault? (b : Blueprint) : List Occurrence → Option Failure
  | [] => none
  | o :: os => b.faultOf o <|> (b.push o).firstFault? os

/-- The first fault of a project. -/
def fault? (b : Blueprint) : Option Failure :=
  ({ settings := b.settings } : Blueprint).firstFault? b.occurrences

/-- The build graph, if the unfolding comes to its end and there is no fault. -/
def graph? (b : Blueprint) (ending : Option Failure) : Except Failure Graph :=
  match b.fault? <|> ending with
  | some f => .error f
  | none => .ok b.graph

/-! ### One more occurrence -/

variable (b : Blueprint) (o : Occurrence)

@[simp] theorem settings_push : (b.push o).settings = b.settings := rfl

theorem declared_push :
    (b.push o).declared =
      b.declared ++ (o.module.declaredTarget b.settings.targetDir).toList := by
  unfold declared push
  rw [List.filterMap_append]
  cases h : o.module.declaredTarget b.settings.targetDir <;> simp [h]

theorem records_push :
    (b.push o).records = b.records ++ o.module.records b.settings.buildDir := by
  simp [records, push]

theorem members_push (p : Path) :
    (b.push o).members p =
      b.members p ++ if o.target b.settings.targetDir = some p then [o.module] else [] := by
  unfold members push
  rw [List.filter_append, List.map_append]
  by_cases h : o.target b.settings.targetDir = some p <;> simp [h]

/-- A target has what the modules say that contribute to it. -/
theorem targetAt_eq_collected (p : Path) :
    b.targetAt p = .collected b.settings.targetDir p
      ((b.members p).flatMap fun m ↦ (m.records b.settings.buildDir).map (·.path))
      ((b.members p).flatMap (·.prereqs)) ((b.members p).flatMap (·.libs)) := by
  have harchive : (∃ m ∈ b.members p, ∃ name ∈ m.prereqs, TargetKind.ofPath (.ofString name) = .archive) ↔
      ∃ name ∈ (b.members p).flatMap (·.prereqs), TargetKind.ofPath (.ofString name) = .archive := by
    simp only [List.mem_flatMap]
    exact ⟨fun ⟨m, hm, name, hname, h⟩ ↦ ⟨name, ⟨m, hm, hname⟩, h⟩,
      fun ⟨name, ⟨m, hm, hname⟩, h⟩ ↦ ⟨m, hm, name, hname, h⟩⟩
  simp only [targetAt, objectsOf, prereqsOf, libsOf, ldflagsOf, Target.collected, List.map_flatMap]
  cases TargetKind.ofPath p with
  | archive => rfl
  | executable => exact congrArg _ (if_congr harchive rfl rfl)

/-- An occurrence leaves the targets alone to which it does not contribute. -/
theorem targetAt_push_of_ne {p : Path} (h : o.target b.settings.targetDir ≠ some p) :
    (b.push o).targetAt p = b.targetAt p := by
  have hm : (b.push o).members p = b.members p := by simp [members_push, h]
  rw [targetAt_eq_collected, targetAt_eq_collected, hm, settings_push]

/-- To the target to which it contributes an occurrence adds what its module says. -/
theorem targetAt_push {p : Path} (h : o.target b.settings.targetDir = some p) :
    (b.push o).targetAt p =
      (((b.targetAt p).withObjects ((o.module.records b.settings.buildDir).map (·.path))).withLibs
        o.module.libs).withPrereqs b.settings.targetDir o.module.prereqs := by
  have hm : (b.push o).members p = b.members p ++ [o.module] := by simp [members_push, h]
  rw [targetAt_eq_collected, targetAt_eq_collected, hm, settings_push, Target.withObjects_collected,
    Target.withLibs_collected, Target.withPrereqs_collected]
  simp only [List.flatMap_append, List.flatMap_singleton]

/-- A target to which nothing contributes is empty. -/
theorem targetAt_of_members_eq_nil {p : Path} (h : b.members p = []) :
    b.targetAt p = { path := p } := by
  rw [targetAt_eq_collected, h]
  exact Target.collected_nil _ p

theorem objects_push :
    (b.push o).objects =
      (o.module.records b.settings.buildDir).foldl (fun t r ↦ t.insert r.path r) b.objects := by
  rw [objects, records_push, List.map_append, Table.ofList_append, List.foldl_map]
  rfl

/-! ### No faults -/

variable {b o}

theorem faultOf_eq_none : b.faultOf o = none ↔
    (∀ p ∈ o.module.declaredTarget b.settings.targetDir, p ∉ b.declared) ∧ o.module.unsupported = [] ∧
      Ownership.clash? o.module (Ownership.claims b.records)
        (Ownership.claims (o.module.records b.settings.buildDir)) = none := by
  have hnew : (o.module.declaredTarget b.settings.targetDir).filter (· ∈ b.declared) = none ↔
      ∀ p ∈ o.module.declaredTarget b.settings.targetDir, p ∉ b.declared := by
    simp [Option.filter_eq_none_iff]
  unfold faultOf
  rw [← hnew]
  cases (o.module.declaredTarget b.settings.targetDir).filter (· ∈ b.declared) with
  | none => by_cases hu : o.module.unsupported = [] <;> simp [hu]
  | some p => simp

/-- What holds of no occurrences, and with each one that is not at fault, holds where there is no fault. -/
theorem induction_of_fault {P : Blueprint → Prop} (h : b.fault? = none) (start : P { settings := b.settings })
    (push : ∀ b o, P b → b.faultOf o = none → P (b.push o)) : P b := by
  have hall (os : List Occurrence) : ∀ b : Blueprint, P b → b.firstFault? os = none →
      P { b with occurrences := b.occurrences ++ os } := by
    induction os with
    | nil =>
      intro b hb _
      rwa [List.append_nil]
    | cons o os ih =>
      intro b hb h
      obtain ⟨hfault, hrest⟩ : b.faultOf o = none ∧ (b.push o).firstFault? os = none := by
        simpa [firstFault?] using h
      have hnext := ih (b.push o) (push b o hb hfault) hrest
      rwa [Blueprint.push, List.append_assoc, List.singleton_append] at hnext
  exact hall b.occurrences _ start h

end Blueprint

end ModuleBuild
