import ModuleBuild.Path.Basic

/-!
# Errors of a build

Why a build cannot go on, apart from refusals of the operating system.
-/

namespace ModuleBuild

/-- One step of a build, as messages call it. -/
inductive BuildStep where
  | compile (source : Path)
  | archive (target : Path)
  | link (target : Path)
  deriving DecidableEq, Repr

/-- What is said of a step that failed. -/
def BuildStep.failure : BuildStep → String
  | .compile p => "Compilation failed for " ++ toString p
  | .archive p => "Archive failed for " ++ toString p
  | .link p => "Link failed for " ++ toString p

/-- Why a build cannot go on. -/
inductive BuildError where
  /-- A goal is no target. -/
  | unknownGoal (goal : Path)
  /-- A target needs itself. -/
  | circular (target : Path)
  /-- A file that is needed is missing, and nothing makes it. -/
  | noRule (input output : Path)
  /-- The program of a step cannot be started. -/
  | cannotRun (step : BuildStep) (program reason : String)
  /-- The command of a step failed. -/
  | failed (step : BuildStep) (stderr stdout : String)
  deriving DecidableEq, Repr

/-- A build error in words. -/
def BuildError.message : BuildError → String
  | .unknownGoal p => "No rule to make target '" ++ toString p ++ "'"
  | .circular p => "Circular prerequisite: " ++ toString p ++ " depends on itself"
  | .noRule i o => "No rule to make '" ++ toString i ++ "', needed by '" ++ toString o ++ "'"
  | .cannotRun s program reason => s.failure ++ ": cannot run " ++ program ++ ": " ++ reason
  | .failed s stderr stdout =>
    s.failure ++ "\nstderr: " ++ stderr ++ "\nstdout: " ++ stdout

end ModuleBuild
