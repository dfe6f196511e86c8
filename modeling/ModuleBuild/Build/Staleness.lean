import ModuleBuild.Failure
import ModuleBuild.Graph.Basic
import ModuleBuild.Log

/-!
# Staleness

Whether an object or target has to be made again, as far as times of change tell. An object whose header
has vanished is stale; a source or an input of a target that is missing is an error.
-/

namespace ModuleBuild

/-- What is found about an object. -/
inductive Verdict where
  | fresh
  | stale
  /-- The object is stale because a header is gone. -/
  | vanished (header : Path)
  deriving DecidableEq, Repr

namespace Verdict

/-- The object has to be compiled. -/
def isStale : Verdict → Bool
  | .fresh => false
  | _ => true

/-- What is said of a verdict. -/
def record? (object : Path) : Verdict → Option Log.Record
  | .vanished header =>
    some ⟨.debug, toString header ++ " vanished; rebuilding " ++ toString object⟩
  | _ => none

end Verdict

namespace Graph

/-- The time of the last change of a file of the project. -/
def modified? (t : FileTree) (project p : Path) : Except Failure (Option Timestamp) :=
  (t.modified? (project / p)).mapError .file

/-- Judge an object, last changed at `made?`, by its inputs. The first input that is missing or newer
decides. -/
def judgeInputs (t : FileTree) (project : Path) (o : ObjectRecord) (made? : Option Timestamp) :
    List Path → Except Failure Verdict
  | [] => .ok (if made?.isSome then .fresh else .stale)
  | p :: ps => do
    match ← modified? t project p with
    | none => if p = o.source then .error (.build (.noRule p o.path)) else .ok (.vanished p)
    | some changed =>
      if made?.any (· < changed) then .ok .stale else judgeInputs t project o made? ps

/-- Judge an object of the graph. -/
def judge (g : Graph) (t : FileTree) (project : Path) (o : ObjectRecord) :
    Except Failure Verdict := do
  judgeInputs t project o (← modified? t project o.path) (g.inputsOf o)

/-- Find out whether one of the inputs of a target, last changed at `made?`, makes it stale. All inputs
must be there. -/
def staleInputs (t : FileTree) (project target : Path) (made? : Option Timestamp) (remade : List Path) :
    (stale : Bool) → List Path → Except Failure Bool
  | stale, [] => .ok stale
  | stale, p :: ps => do
    match ← modified? t project p with
    | none => .error (.build (.noRule p target))
    | some changed =>
      let newer := remade.contains p || made?.any (· < changed)
      staleInputs t project target made? remade (stale || newer) ps

/-- The target has to be made: it is missing, or an input is newer or was made again in this build. -/
def targetIsStale (t : FileTree) (project : Path) (a : TargetAction) (remade : List Path) :
    Except Failure Bool := do
  let made? ← modified? t project a.target
  staleInputs t project a.target made? remade made?.isNone a.inputs

end Graph

end ModuleBuild
