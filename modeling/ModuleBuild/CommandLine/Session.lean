import ModuleBuild.Build.Run
import ModuleBuild.CommandLine.Arguments
import ModuleBuild.CommandLine.Report
import ModuleBuild.Graph.Json
import ModuleBuild.Graph.Resolution

/-!
# Running the program

The program from its arguments to its exit status. Before anything is read, the directory and the root
module of the project are looked for; then the command is carried out, and its outcome is reported.
-/

namespace ModuleBuild.CommandLine

/-- The world in which the program runs. -/
structure Surroundings where
  tree : FileTree
  /-- The directory in which the program is started. -/
  directory : Path
  /-- The variables of the environment. -/
  environment : List (String × String) := []
  processors : Option Int := none
  tools : Toolchain := .absent
  /-- The user breaks off before the project is resolved. -/
  interrupted : Bool := false

/-- How the program ends. -/
inductive Exit where
  | status (code : Nat)
  /-- The user breaks off a command that makes no provision for it. -/
  | interrupted
  /-- A failure that is not reported. -/
  | crashed (failure : Failure)
  deriving DecidableEq, Repr

/-- What the program leaves. -/
structure Outcome where
  exit : Exit
  output : String := ""
  errors : String := ""
  commands : List (List String) := []
  tree : FileTree

/-- The status of a failure. -/
def failureStatus : Nat := 1

/-- The status of a project that is not there, and of arguments that make no sense. -/
def rejectedStatus : Nat := 2

/-- The status of a command that was broken off. -/
def interruptedStatus : Nat := 130

namespace Arguments

/-- The directory of the project. -/
def projectDirectory (a : Arguments) (current : Path) : Path :=
  a.directory?.elim current .ofString

/-- The descriptor of the root module, which must be one text. -/
def root (a : Arguments) : Except Failure Path :=
  match a.root? with
  | none => .ok Project.defaultRoot
  | some (.text s) => .ok (.ofString s)
  | some (.items _) => .error .notOnePath

/-- The settings that the arguments override. -/
def overrides (a : Arguments) : Overrides :=
  [("build_dir", a.buildDir?), ("target_dir", a.targetDir?), ("cc", a.cc?), ("cxx", a.cxx?),
    ("ar", a.ar?), ("lnk", a.lnk?)]

/-- The project that the arguments name, with its root module. -/
def project (a : Arguments) (root : Path) (s : Surroundings) (includeHeaders : Bool) : Project where
  directory := a.projectDirectory s.directory
  root := root
  settings := .ofEnvironment fun name ↦ s.environment.lookup name
  overrides := a.overrides
  includeHeaders := includeHeaders

end Arguments

/-- The directory of the project that a request is about. -/
def Request.projectDirectory (r : Request) (current : Path) : Path :=
  match r with
  | .run _ a => a.projectDirectory current
  | _ => current

/-- Look for the root module of a project before anything is read. The answer is what speaks against
the project, or the root module; the directory is looked at first. -/
def findRoot (t : FileTree) (directory : Path) (root : Except Failure Path) :
    Except Failure (Except String Path) := do
  if !(← (t.pathExists directory).mapError .file) then
    return .error ("Project directory does not exist: " ++ toString directory)
  else if !(← (t.isDirectory directory).mapError .file) then
    return .error ("Project path is not a directory: " ++ toString directory)
  else
    let root ← root
    if !(← (t.isFile (directory / root)).mapError .file) then
      return .error ("Root module not found: " ++ toString (directory / root) ++
        " (use -f to name another descriptor)")
    else return .ok root

/-- Resolve a project, unless the user breaks off before. -/
def resolve (s : Surroundings) (p : Project) : List Log.Record × Except Failure Resolved :=
  if s.interrupted then ([], .error .interrupted) else p.resolve s.tree

/-- A command as part of a run: it answers with the last text it prints. -/
def Command.body (c : Command) (a : Arguments) (root : Path) (s : Surroundings) : RunM String := do
  let resolved (includeHeaders : Bool) : RunM Graph := do
    let (said, result) := resolve s (a.project root s includeHeaders)
    said.forM RunM.say
    return (← RunM.ofExcept result).graph
  let options (showProgress : Bool) : BuildOptions :=
    { project := a.projectDirectory s.directory
      jobs := jobsOrDefault a.jobs? s.processors
      showProgress
      verbose := a.verbose
      tools := s.tools }
  match c with
  | .all =>
    let g ← resolved true
    if a.verbose then
      RunM.print ("Linker driver: " ++ g.linker.asText)
      RunM.print ("Targets: " ++
        (if g.defaultGoals.isEmpty then "none" else ", ".intercalate (g.defaultGoals.map toString)))
    let result ← g.build (options !a.noProgress) none
    let what :=
      if result.compiled.isEmpty && result.realized.isEmpty then
        Report.line "Nothing to be done for 'all'."
      else
        Report.success "Build successful!" ++
          "".intercalate (result.realized.map fun p ↦ Report.line ("  " ++ toString p))
    return what ++ Report.line "Build time: 0.00s"
  | .clean =>
    let g ← resolved false
    let removed ← g.clean (options false)
    return Report.line ("Removed " ++ toString removed.length ++ " files.")
  | .graph =>
    let g ← resolved true
    return Report.line (g.toJson.render 0)

/-- The headline of a command that failed. -/
def Command.failureTitle : Command → String
  | .all => "Build failed!"
  | .clean => "Clean failed!"
  | .graph => "Resolution failed!"

/-- How a command that failed ends, and what is reported. -/
def Command.conclude (c : Command) (f : Failure) (verbose : Bool) : Exit × String :=
  if f = .interrupted then
    if c = .graph then (.interrupted, "") else (.status interruptedStatus, Report.interruption)
  else if f.isExpected then
    (.status failureStatus, Report.failure c.failureTitle f.message f.hint?)
  else (.status failureStatus, Report.unexpected f verbose)

/-- Carry out a command. -/
def Command.run (c : Command) (a : Arguments) (s : Surroundings) : Outcome :=
  match findRoot s.tree (a.projectDirectory s.directory) a.root with
  | .error f => { exit := .crashed f, tree := s.tree }
  | .ok (.error objection) =>
    { exit := .status rejectedStatus, output := Report.rejection objection, tree := s.tree }
  | .ok (.ok root) =>
    let (result, run) := (c.body a root s).run { tree := s.tree }
    let (exit, last) := match result with
      | .ok text => (.status 0, text)
      | .error f => c.conclude f a.verbose
    let shown := Log.atLeast (if a.verbose then .debug else .warning) run.log
    { exit
      output := run.output ++ last
      errors := "".intercalate (shown.map (Report.logLine programName))
      commands := run.commands
      tree := run.tree }

/-- How the program is called. -/
def usageText : String :=
  Report.line ("usage: " ++ programName ++ " [all | clean | graph] [options] [project_dir]")

/-- Run the program. -/
def run (arguments : List String) (s : Surroundings) : Outcome :=
  match Request.ofList arguments with
  | .run command a => command.run a s
  | .help => { exit := .status 0, output := usageText, tree := s.tree }
  | .version =>
    { exit := .status 0, output := Report.line (programName ++ " " ++ programVersion)
      tree := s.tree }
  | .misuse program message =>
    { exit := .status rejectedStatus
      errors := usageText ++ Report.line (program ++ ": error: " ++ message)
      tree := s.tree }

end ModuleBuild.CommandLine
