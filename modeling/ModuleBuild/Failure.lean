import ModuleBuild.Build.Error
import ModuleBuild.Module.Stack
import ModuleBuild.Settings.Override
import ModuleBuild.Source.Ownership
import ModuleBuild.Target.Registry

/-!
# Failures

Everything that can keep the program from its answer. A failure is either one that the user can mend, and
comes with a hint, or an unexpected one, which reports name by its kind.
-/

namespace ModuleBuild

/-- Why there is no answer. -/
inductive Failure where
  | load (error : LoadError)
  /-- A module is among its own submodules; `chain` leads from the root to the reference. -/
  | cycle (module : Path) (chain : List Path)
  | source (error : SourceError)
  | registry (error : RegistryError)
  | build (error : BuildError)
  | stack (error : StackError)
  | override (error : OverrideError)
  | file (error : FileError)
  | notUtf8 (fault : Text.Utf8.Fault)
  | namelessSource (error : Nameless)
  | namelessObject (error : Nameless)
  /-- No compile rule is for a suffix. -/
  | noCompileRule (suffix : String)
  /-- The program of a command is set to a list. -/
  | notOneProgram
  /-- The root module is set to a list. -/
  | notOnePath
  /-- Fewer than one compile job was asked for. -/
  | noWorkers
  /-- The user broke the work off. -/
  | interrupted
  /-- Submodules nest without end. -/
  | endless
  deriving DecidableEq, Repr

namespace Failure

/-- The failure of collecting a module's objects. -/
def ofCollect : CollectError → Failure
  | .source e => .source e
  | .nameless e => .namelessSource e

/-- The failure of loading a module. -/
def ofLoad : LoadFailure → Failure
  | .load e => .load e
  | .file e => .file e

/-- The kind of a failure, as error reports name it. -/
def kind : Failure → String
  | .load _ => "ModuleLoadError"
  | .cycle .. => "ModuleCycleError"
  | .source _ => "SourceValidationError"
  | .registry (.declaredTwice _) => "DuplicateTargetError"
  | .registry (.undeclared _) => "KeyError"
  | .build _ => "ActionExecutionError"
  | .stack _ => "StackContextError"
  | .override _ => "TypeError"
  | .file e => e.kind
  | .notUtf8 _ => "UnicodeDecodeError"
  | .namelessSource _ => "ValueError"
  | .namelessObject _ => "ValueError"
  | .noCompileRule _ => "KeyError"
  | .notOneProgram => "TypeError"
  | .notOnePath => "TypeError"
  | .noWorkers => "ValueError"
  | .interrupted => "KeyboardInterrupt"
  | .endless => "RecursionError"

/-- A failure in words. -/
def message : Failure → String
  | .load e => e.message
  | .cycle m chain =>
    "Module " ++ toString m ++ " includes itself: " ++
      " -> ".intercalate ((chain ++ [m]).map toString)
  | .source e => e.message
  | .registry e => e.message
  | .build e => e.message
  | .stack e => e.message
  | .override e => e.message
  | .file e => e.message
  | .notUtf8 f => f.message
  | .namelessSource e => "PurePosixPath(" ++ Text.quoted (toString e.path) ++ ") has an empty name"
  | .namelessObject e => "PosixPath(" ++ Text.quoted (toString e.path) ++ ") has an empty name"
  | .noCompileRule suffix => Text.quoted suffix
  | .notOneProgram => "sequence item 0: expected str instance, list found"
  | .notOnePath => "unsupported operand type(s) for /: 'PosixPath' and 'list'"
  | .noWorkers => "max_workers must be greater than 0"
  | .interrupted => ""
  | .endless => "maximum recursion depth exceeded"

/-- The failure is one that the user can mend. -/
def isExpected : Failure → Bool
  | .load _ | .cycle .. | .source _ | .registry (.declaredTwice _) | .build _ | .stack _ => true
  | _ => false

/-- What to look at next. -/
def hint? : Failure → Option String
  | .load _ => some "Check the 'submodules' entries and the descriptor's INI syntax."
  | .cycle .. => some "Remove the submodule reference that closes the loop."
  | .source _ =>
    some ("Recognized source extensions: " ++ " ".intercalate (Language.suffixes.map Prod.fst))
  | .registry (.declaredTwice _) =>
    some "Declare each target in one module; submodules inherit it."
  | .build _ => some "Re-run with -v to see every command."
  | _ => none

end Failure

end ModuleBuild
