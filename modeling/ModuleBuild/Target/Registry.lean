import ModuleBuild.Target.Basic

/-!
# The registry of targets

The targets that modules declare, in the order of their declarations. Each collects what is attached to
it, without doubles and in the order in which it comes.
-/

namespace ModuleBuild

/-- The targets declared so far; names of targets are relative to `directory`. -/
structure Registry where
  directory : Path
  targets : Table Path Target := .empty
  deriving DecidableEq, Repr

/-- What cannot be done with a target. -/
inductive RegistryError where
  | declaredTwice (target : Path)
  | undeclared (target : Path)
  deriving DecidableEq, Repr

/-- A registry error in words. -/
def RegistryError.message : RegistryError → String
  | .declaredTwice p => "Target '" ++ toString p ++ "' is declared more than once"
  | .undeclared p => toString p

namespace Registry

/-- The path of the target of a given name. -/
def targetPath (r : Registry) (name : String) : Path := r.directory / Path.ofString name

/-- The target at a path has been declared. -/
def contains (r : Registry) (p : Path) : Bool := r.targets.contains p

/-- How many targets have been declared. -/
def size (r : Registry) : Nat := r.targets.entries.length

/-- The target at a path. -/
def get (r : Registry) (p : Path) : Except RegistryError Target :=
  match r.targets.find? p with
  | some t => .ok t
  | none => .error (.undeclared p)

/-- Declare a target. -/
def declare (r : Registry) (name : String) : Except RegistryError Registry :=
  let p := r.targetPath name
  if r.contains p then .error (.declaredTwice p)
  else .ok { r with targets := r.targets.insert p { path := p } }

/-- Change a target that has been declared. -/
def update (r : Registry) (p : Path) (f : Target → Target) : Except RegistryError Registry := do
  let t ← r.get p
  return { r with targets := r.targets.insert p (f t) }

/-- Attach objects to a target. -/
def attachObjects (r : Registry) (p : Path) (objects : List Path) : Except RegistryError Registry :=
  r.update p fun t ↦ { t with objects := appendNew t.objects objects }

/-- The linker flag that makes the directory of targets a place to look for libraries. -/
def searchFlag (r : Registry) : String := "-L" ++ toString r.directory

/-- Attach prerequisites, given by name, to a target. An executable with an archive among them looks
for libraries in the directory of targets. -/
def attachPrereqs (r : Registry) (p : Path) (names : List String) : Except RegistryError Registry :=
  r.update p fun t ↦
    let t := { t with prereqs := appendNew t.prereqs (names.map r.targetPath) }
    if !t.isArchive && names.any fun n ↦ TargetKind.ofPath (.ofString n) = .archive then
      { t with ldflags := appendNew t.ldflags [r.searchFlag] }
    else t

/-- Attach libraries to a target. An archive is not linked and takes none. -/
def attachLibs (r : Registry) (p : Path) (names : List String) : Except RegistryError Registry :=
  r.update p fun t ↦ if t.isArchive then t else { t with libs := appendNew t.libs names }

end Registry

end ModuleBuild
