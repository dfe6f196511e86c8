import ModuleBuild.Settings.Value
import ModuleBuild.Source.Object
import ModuleBuild.Target.Basic

/-!
# Build graphs

All that is needed to build a project: its targets and objects, the commands that make them, and the
headers on which objects are known to depend.
-/

namespace ModuleBuild

/-- How sources with one suffix are compiled. -/
structure CompileRule where
  suffix : String
  language : Language
  compiler : SettingValue
  deriving DecidableEq, Repr

namespace CompileRule

/-- The rule is for sources of that name. -/
def applies (r : CompileRule) (source : Path) : Bool := source.suffix = r.suffix

end CompileRule

/-- A command as it is set up: its program, which the settings name, and the arguments for it. -/
structure Invocation where
  program : SettingValue
  arguments : List String
  deriving DecidableEq, Repr

namespace Invocation

/-- The words of the command, if its program is one word. -/
def words? (i : Invocation) : Option (List String) :=
  match i.program with
  | .text p => some (p :: i.arguments)
  | .items _ => none

end Invocation

/-- The command that makes an object. -/
structure CompileAction where
  object : ObjectRecord
  command : Invocation
  deriving DecidableEq, Repr

/-- The command that makes a target, and what it is made from. -/
structure TargetAction where
  target : Path
  kind : TargetKind
  command : Invocation
  objects : List Path := []
  prereqs : List Path := []
  deriving DecidableEq, Repr

namespace TargetAction

/-- Everything a target is made from: its objects, then its prerequisites. -/
def inputs (a : TargetAction) : List Path := a.objects ++ a.prereqs

/-- What making the target is called. -/
def kindName (a : TargetAction) : String :=
  match a.kind with
  | .archive => "archive"
  | .executable => "link"

end TargetAction

/-- A project that has been resolved. -/
structure Graph where
  linker : SettingValue := .text ""
  targets : Table Path Target := .empty
  objects : Table Path ObjectRecord := .empty
  compileRules : List CompileRule := []
  compileActions : Table Path CompileAction := .empty
  targetActions : Table Path TargetAction := .empty
  /-- The headers of objects, as far as they are known. -/
  headers : Table Path (List Path) := .empty
  deriving DecidableEq, Repr

namespace Graph

/-- The targets that are made when no goals are given. -/
def defaultGoals (g : Graph) : List Path := g.targets.keys

/-- What an object is made from: its source and its known headers. -/
def inputsOf (g : Graph) (o : ObjectRecord) : List Path :=
  appendNew [o.source] ((g.headers.find? o.path).getD [])

/-- The files that belong to an object: itself, its dependency descriptor and its listing. -/
def objectFiles (o : ObjectRecord) : Except Nameless (List Path) := do
  return [o.path, ← o.dependencies, ← o.listing]

/-- Every file that building may leave: the targets, then the files of the objects. -/
def products (g : Graph) : Except Nameless (List Path) := do
  return g.targets.keys ++ (← g.objects.values.mapM objectFiles).flatten

end Graph

end ModuleBuild
