import ModuleBuild.Failure
import ModuleBuild.Log

/-!
# Reports

How the outcome of a command is shown: coloured headlines, details and hints, and log records with the
name of the program.
-/

namespace ModuleBuild.CommandLine.Report

/-- A colour of the terminal. -/
inductive Colour where
  | red
  | green
  | yellow
  deriving DecidableEq, Repr

/-- The number of a colour in a terminal sequence. -/
def Colour.code : Colour → String
  | .red => "31"
  | .green => "32"
  | .yellow => "33"

/-- A text in a bright colour. -/
def coloured (c : Colour) (text : String) : String :=
  "\x1b[1;" ++ c.code ++ "m" ++ text ++ "\x1b[0m"

/-- A line of text. -/
def line (text : String) : String := text ++ "\n"

/-- The report of a command that failed. -/
def failure (title details : String) (hint? : Option String) : String :=
  line "" ++ line (coloured .red ("✗ " ++ title)) ++ line "" ++ line details ++
    hint?.elim "" (fun h ↦ line ("hint: " ++ h)) ++ line ""

/-- The report of a command that succeeded. -/
def success (message : String) : String := line "" ++ line (coloured .green ("✓ " ++ message))

/-- The report of a command that was broken off. -/
def interruption : String :=
  line "" ++ line (coloured .yellow
    "✗ Interrupted. Objects compiled so far are kept and reused next run.")

/-- The report of a failure that the user cannot mend. When verbose, it ends where a trace of the program
would begin. -/
def unexpected (f : Failure) (verbose : Bool) : String :=
  let details := f.kind ++ ": " ++ f.message
  if verbose then
    line "" ++ line (coloured .red "✗ Internal error") ++ line "" ++ line details ++ line ""
  else failure "Internal error" details (some "Re-run with -v for a traceback.")

/-- The report of a project that is not one. -/
def rejection (message : String) : String := line (coloured .red ("✗ Error: " ++ message))

/-- A log record as a line. -/
def logLine (program : String) (r : Log.Record) : String :=
  line (program ++ " " ++ r.level.name ++ ": " ++ r.text)

end ModuleBuild.CommandLine.Report
