import ModuleBuild.Listing.Descriptor
import ModuleBuild.Proofs.Graph.Resolving
import ModuleBuild.Proofs.Module.Flags

/-!
# What the flags of modules do not decide

The flags that a module sets go into the records of its objects and from there into the commands that compile them, and
nowhere else. A blueprint without them has the same faults, the same targets and linker, and the same records but for the
flags in these (`Blueprint.fault?_withoutFlags`, `Blueprint.targetAt_withoutFlags`, `Blueprint.records_withoutFlags`).
-/

namespace ModuleBuild

/-- The record without the flags of the module. -/
def ObjectRecord.withoutFlags (x : ObjectRecord) : ObjectRecord :=
  { x with cflags := [], cxxflags := [], defines := [], includeFlags := [] }

namespace Module

theorem record?_withoutFlags (m : Module) (buildDir : Path) (source : String) :
    m.withoutFlags.record? buildDir source = (m.record? buildDir source).map ObjectRecord.withoutFlags := by
  unfold record?
  cases Language.ofSource? (.ofString source) with
  | none => rfl
  | some l =>
    simp only [withoutFlags, Option.bind_eq_bind, Option.bind_some]
    cases (objectPath (buildDir / m.directory) (.ofString source)).toOption <;> rfl

/-- A module has the same records without flags, but for the flags in them. -/
theorem records_withoutFlags (m : Module) (buildDir : Path) :
    m.withoutFlags.records buildDir = (m.records buildDir).map ObjectRecord.withoutFlags := by
  unfold records
  rw [List.map_filterMap]
  congr 1
  funext source
  exact m.record?_withoutFlags buildDir source

end Module

/-- The occurrence without the flags that modules set. -/
def Occurrence.withoutFlags (o : Occurrence) : Occurrence :=
  ⟨o.module.withoutFlags, o.ancestors.map Module.withoutFlags⟩

theorem Occurrence.target_withoutFlags (o : Occurrence) (targetDir : Path) :
    o.withoutFlags.target targetDir = o.target targetDir := by
  change ((o.module :: o.ancestors).map Module.withoutFlags).findSome? _ = _
  rw [List.findSome?_map]
  rfl

namespace Ownership

theorem claims_withoutFlags (rs : List ObjectRecord) : claims (rs.map ObjectRecord.withoutFlags) = claims rs := by
  unfold claims
  rw [List.map_map]
  rfl

theorem clash?_withoutFlags (m : Module) (given places : List (Path × Path)) :
    clash? m.withoutFlags given places = clash? m given places := by
  induction places generalizing given with
  | nil => rfl
  | cons place rest ih =>
    rw [clash?, clash?]
    simp only [ih]
    rfl

end Ownership

namespace Blueprint

variable (b : Blueprint) (o : Occurrence) (p : Path)

/-- The blueprint without the flags that modules set. -/
def withoutFlags : Blueprint := { b with occurrences := b.occurrences.map Occurrence.withoutFlags }

@[simp] theorem settings_withoutFlags : b.withoutFlags.settings = b.settings := rfl

theorem push_withoutFlags : (b.push o).withoutFlags = b.withoutFlags.push o.withoutFlags := by
  simp [withoutFlags, push]

theorem declared_withoutFlags : b.withoutFlags.declared = b.declared := by
  unfold declared withoutFlags
  rw [List.filterMap_map]
  rfl

theorem records_withoutFlags : b.withoutFlags.records = b.records.map ObjectRecord.withoutFlags := by
  unfold records withoutFlags
  rw [List.flatMap_map, List.map_flatMap]
  congr 1
  funext o
  exact o.module.records_withoutFlags b.settings.buildDir

theorem members_withoutFlags : b.withoutFlags.members p = (b.members p).map Module.withoutFlags := by
  unfold members withoutFlags
  rw [List.filter_map, List.map_map, List.map_map]
  simp only [Function.comp_def, Occurrence.target_withoutFlags]
  rfl

/-- What modules contribute to a target are no flags. -/
theorem targetAt_withoutFlags : b.withoutFlags.targetAt p = b.targetAt p := by
  have hobjects : b.withoutFlags.objectsOf p = b.objectsOf p := by
    unfold objectsOf
    rw [members_withoutFlags, List.flatMap_map]
    simp only [settings_withoutFlags, Module.records_withoutFlags, List.map_map]
    rfl
  have hprereqs : b.withoutFlags.prereqsOf p = b.prereqsOf p := by
    unfold prereqsOf
    rw [members_withoutFlags, List.flatMap_map]
    rfl
  have hlibs : b.withoutFlags.libsOf p = b.libsOf p := by
    unfold libsOf
    rw [members_withoutFlags, List.flatMap_map]
    rfl
  have hldflags : b.withoutFlags.ldflagsOf p = b.ldflagsOf p := by
    unfold ldflagsOf
    simp only [members_withoutFlags, List.mem_map, exists_exists_and_eq_and]
    rfl
  rw [targetAt, targetAt, hobjects, hprereqs, hlibs, hldflags]

theorem linker_withoutFlags : b.withoutFlags.linker = b.linker := by
  unfold linker
  rw [records_withoutFlags, List.any_map]
  rfl

theorem faultOf_withoutFlags : b.withoutFlags.faultOf o.withoutFlags = b.faultOf o := by
  unfold faultOf
  rw [declared_withoutFlags, records_withoutFlags, Ownership.claims_withoutFlags]
  simp only [Occurrence.withoutFlags, settings_withoutFlags, Module.records_withoutFlags,
    Ownership.claims_withoutFlags, Ownership.clash?_withoutFlags]
  rfl

/-- Without flags there are the same faults. -/
theorem fault?_withoutFlags : b.withoutFlags.fault? = b.fault? := by
  have hfirst (os : List Occurrence) (b : Blueprint) :
      b.withoutFlags.firstFault? (os.map Occurrence.withoutFlags) = b.firstFault? os := by
    induction os generalizing b with
    | nil => rfl
    | cons o os ih => rw [List.map_cons, firstFault?, firstFault?, faultOf_withoutFlags, ← push_withoutFlags, ih]
  exact hfirst b.occurrences { settings := b.settings }

end Blueprint

namespace Listing

/-- The headers of an object hang on its path and its source. -/
theorem headersOf_withoutFlags (t : FileTree) (project : Path) (x : ObjectRecord) :
    headersOf t project x.withoutFlags = headersOf t project x := rfl

end Listing

end ModuleBuild
