import ModuleBuild.Graph.Basic
import ModuleBuild.Log
import ModuleBuild.Module.Walk

/-!
# Assembling targets and objects

Visits are taken in one by one: the target that a module declares, the objects of its sources, and what
it contributes to the target in effect. `add` is what a visit changes, `remarks` what is said of it.
-/

namespace ModuleBuild

/-- What the visits so far have contributed. -/
structure Assembly where
  registry : Registry
  ownership : Ownership
  objects : Table Path ObjectRecord := .empty
  deriving DecidableEq, Repr

namespace Assembly

/-- The assembly before the first visit. -/
def start (s : Settings) : Assembly where
  registry := ⟨s.targetDir, .empty⟩
  ownership := { buildDir := s.buildDir }

/-- Declare the target of a module, if it has one. -/
def declare (a : Assembly) (m : Module) : Except Failure Assembly :=
  match m.target with
  | none => .ok a
  | some name => do return { a with registry := ← (a.registry.declare name).mapError .registry }

/-- Collect the objects of a module. An object that was there keeps its place. -/
def collect (a : Assembly) (m : Module) : Except Failure (Assembly × List Path) := do
  let (ownership, records) ← (a.ownership.collect m).mapError .ofCollect
  let objects := records.foldl (fun t o ↦ t.insert o.path o) a.objects
  return ({ a with ownership, objects }, records.map (·.path))

/-- Attach objects, libraries and prerequisites to the target in effect. -/
def contribute (a : Assembly) (v : Visit) (objects : List Path) : Except Failure Assembly :=
  match v.target with
  | none => .ok a
  | some target => do
    let r ← (a.registry.attachObjects target objects).mapError .registry
    let r ← (r.attachLibs target v.module.libs).mapError .registry
    let r ← (r.attachPrereqs target v.module.prereqs).mapError .registry
    return { a with registry := r }

/-- Take in one visit. -/
def add (a : Assembly) (v : Visit) : Except Failure Assembly := do
  let a ← a.declare v.module
  let (a, objects) ← a.collect v.module
  a.contribute v objects

/-- Take in visits, one after another. -/
def addAll (a : Assembly) : List Visit → Except Failure Assembly
  | [] => .ok a
  | v :: vs => do (← a.add v).addAll vs

/-- What is said of a module whose contributions go to no target. -/
def lostRecord (m : Module) : Log.Record where
  level := .warning
  text :=
    "Module " ++ toString m.path ++
      " contributes to no target; declare a target in it or an enclosing module"

/-- What is said when a module has been entered. -/
def visitRecord (v : Visit) : Log.Record where
  level := .debug
  text :=
    .ofList (List.replicate (2 * (v.scope.depth - 1)) ' ') ++ "Module " ++
      toString v.module.path ++ " (target: " ++ v.target.elim "none" toString ++ ")"

/-- What is said of a target that has been declared. -/
def declareRecord (target : Path) : Log.Record :=
  ⟨.debug, "Declared " ++ (TargetKind.ofPath target).name ++ " target " ++ toString target⟩

/-- What is said of a visit's contributions. -/
def contributeRecords (v : Visit) : List Log.Record :=
  let m := v.module
  match v.target with
  | none =>
    if m.sources.isEmpty && m.libs.isEmpty && m.prereqs.isEmpty then [] else [lostRecord m]
  | some target =>
    if TargetKind.ofPath target = .archive && !m.libs.isEmpty then
      [⟨.debug, "Ignoring libraries " ++ " ".intercalate m.libs ++ " for archive " ++
        toString target⟩]
    else []

/-- What is said of a visit as far as it succeeds. -/
def remarks (a : Assembly) (v : Visit) : List Log.Record :=
  match a.declare v.module with
  | .error _ => []
  | .ok a =>
    ((v.module.declaredTarget a.registry.directory).map declareRecord).toList ++
      visitRecord v ::
        match a.collect v.module with
        | .error _ => []
        | .ok _ => contributeRecords v

/-- What is said of visits as far as they succeed. -/
def remarksAll (a : Assembly) : List Visit → List Log.Record
  | [] => []
  | v :: vs =>
    a.remarks v ++
      match a.add v with
      | .error _ => []
      | .ok a => a.remarksAll vs

/-- Take in the visits of a walk while it goes on, and end at the first failure of the walk or of a visit;
with the answer comes what is said on the way. -/
def follow (a : Assembly) : Walk → List Log.Record × Except Failure Assembly
  | .stop none => ([], .ok a)
  | .stop (some f) => ([], .error f)
  | .visit v rest =>
    match a.add v with
    | .error f => (a.remarks v, .error f)
    | .ok b =>
      let (said, result) := b.follow (rest ())
      (a.remarks v ++ said, result)

/-- Following a walk says what its visits call for. -/
theorem fst_follow (a : Assembly) (w : Walk) : (a.follow w).1 = a.remarksAll w.visits := by
  induction w generalizing a with
  | stop f? => cases f? <;> rfl
  | visit v rest ih =>
    simp only [follow, Walk.visits, remarksAll]
    split <;> simp [*]

/-- Following a walk takes in all of its visits, and then fails if the walk does. -/
theorem snd_follow (a : Assembly) (w : Walk) :
    (a.follow w).2 =
      match a.addAll w.visits, w.failure? with
      | .error f, _ => .error f
      | .ok _, some f => .error f
      | .ok b, none => .ok b := by
  induction w generalizing a with
  | stop f? => cases f? <;> rfl
  | visit v rest ih =>
    simp only [follow, Walk.visits, Walk.failure?, addAll]
    cases h : a.add v with
    | error f => rfl
    | ok b => simpa [bind, Except.bind] using ih () b

end Assembly

end ModuleBuild
