import ModuleBuild.Build.Order
import ModuleBuild.Build.Staleness
import ModuleBuild.Build.Toolchain
import ModuleBuild.Listing.Descriptor

/-!
# Runs

A build changes the file tree, starts commands, prints, and leaves log records; all of this is the state
of a run, which is kept also when the build fails. Stale objects are compiled first, one after another;
then stale targets are made in the order of targets. The first failure ends the run.
-/

namespace ModuleBuild

/-- How a build is to be run. -/
structure BuildOptions where
  /-- The directory of the project. -/
  project : Path := .here
  /-- How many compiles may run at a time. -/
  jobs : Int := 1
  showProgress : Bool := false
  /-- Print every command. -/
  verbose : Bool := false
  tools : Toolchain := .absent

/-- The number of jobs on a machine with so many processors, where their number is known. -/
def defaultJobs (processors : Option Int) : Int :=
  match processors with
  | some n => if n = 0 then 1 else n
  | none => 1

/-- The number of jobs that is meant by a number, of which nothing and zero leave it open. -/
def jobsOrDefault (jobs processors : Option Int) : Int :=
  match jobs with
  | some j => if j = 0 then defaultJobs processors else j
  | none => defaultJobs processors

/-- What a run has done so far. -/
structure Run where
  tree : FileTree
  /-- The commands that were started, in order. -/
  commands : List (List String) := []
  /-- The text that was printed. -/
  output : String := ""
  log : List Log.Record := []

/-- A part of a run that may fail. What it has done until then stays done. -/
abbrev RunM := ExceptT Failure (StateM Run)

namespace RunM

/-- Leave a log record. -/
def say (r : Log.Record) : RunM Unit := modify fun run ↦ { run with log := run.log ++ [r] }

/-- Print a line. -/
def print (line : String) : RunM Unit :=
  modify fun run ↦ { run with output := run.output ++ line ++ "\n" }

/-- Fail unless there is an answer. -/
def ofExcept {α : Type} : Except Failure α → RunM α
  | .ok a => pure a
  | .error f => throw f

/-- Change the tree by an operation that gives it back also when it fails. -/
def change {α : Type} (f : FileTree → FileTree × Except Failure α) : RunM α := do
  let (t, result) := f (← get).tree
  modify fun run ↦ { run with tree := t }
  ofExcept result

/-- Ask the tree. -/
def ask {α : Type} (f : FileTree → Except Failure α) : RunM α := do
  ofExcept (f (← get).tree)

/-- See to it that the directory of an output is there. -/
def ensureParent (p : Path) : RunM Unit :=
  change fun t ↦
    let (t, result) := t.ensureDirectory p.parent
    (t, result.mapError .file)

/-- Start the command of a step and see how it ends. -/
def start (o : BuildOptions) (command : List String) : RunM Response := do
  let run ← get
  let (t, response) := o.tools run.tree o.project command
  set { run with tree := t, commands := run.commands ++ [command] }
  return response

/-- Run the command of a step, which must succeed. -/
def perform (o : BuildOptions) (step : BuildStep) (i : Invocation) : RunM Unit := do
  let some command := i.words? | throw .notOneProgram
  let line := " ".intercalate command
  if o.verbose then print line
  say ⟨.debug, "Running: " ++ line⟩
  match ← start o command with
  | .cannotStart reason => throw (.build (.cannotRun step (command.headD "") reason))
  | .interrupted => throw .interrupted
  | .exited status stdout stderr =>
    if status ≠ 0 then throw (.build (.failed step stderr stdout))
    else if o.verbose && stderr ≠ "" then print stderr

end RunM

open RunM

/-- What a build did. -/
structure BuildResult where
  compiled : List Path := []
  /-- The targets that were made. -/
  realized : List Path := []
  upToDate : List Path := []
  deriving DecidableEq, Repr

namespace Graph

/-- The objects of targets, each once. -/
def objectsOf (g : Graph) (order : List Path) : List Path :=
  order.foldl (fun objects p ↦ appendNew objects ((g.targets.find? p).elim [] (·.objects))) []

/-- The stale ones of some objects, with their actions. -/
def staleActions (g : Graph) (o : BuildOptions) : List Path → RunM (List CompileAction)
  | [] => pure []
  | p :: ps => do
    match g.compileActions.find? p with
    | none => throw (.registry (.undeclared p))
    | some action =>
      let verdict ← ask fun t ↦ g.judge t o.project action.object
      (verdict.record? p).forM say
      let actions ← g.staleActions o ps
      return if verdict.isStale then action :: actions else actions

/-- Compile an object, then make its dependency descriptor. -/
def compile (o : BuildOptions) (a : CompileAction) : RunM Unit := do
  ensureParent (o.project / a.object.path)
  perform o (.compile a.object.source) a.command
  match ← change fun t ↦ Listing.finalize t o.project a.object with
  | none => say (Listing.noListingRecord a.object)
  | some _ => pure ()

/-- Compile objects, one after another. -/
def compileAll (o : BuildOptions) : List CompileAction → RunM Unit
  | [] => pure ()
  | a :: as => do
    compile o a
    compileAll o as

/-- Compile stale objects. There must be a job to do it. -/
def compileStale (o : BuildOptions) (actions : List CompileAction) : RunM Unit :=
  if !actions.isEmpty && o.jobs ≤ 0 then throw .noWorkers else compileAll o actions

/-- Make a target. -/
def realize (o : BuildOptions) (a : TargetAction) : RunM Unit := do
  ensureParent (o.project / a.target)
  if o.showProgress then
    let verb := match a.kind with
      | .archive => "Archiving"
      | .executable => "Linking"
    print (verb ++ " " ++ toString a.target ++ "...")
  let step := match a.kind with
    | .archive => .archive a.target
    | .executable => .link a.target
  perform o step a.command

/-- Make those of some targets that are stale, one after another. -/
def realizeAll (g : Graph) (o : BuildOptions) (result : BuildResult) :
    List Path → RunM BuildResult
  | [] => pure result
  | p :: ps => do
    match g.targetActions.find? p with
    | none => throw (.registry (.undeclared p))
    | some action =>
      let remade := result.compiled ++ result.realized
      if ← ask fun t ↦ targetIsStale t o.project action remade then
        realize o action
        g.realizeAll o { result with realized := result.realized ++ [p] } ps
      else
        g.realizeAll o { result with upToDate := result.upToDate ++ [p] } ps

/-- What is said at the end of a build. -/
def buildRecord (r : BuildResult) : Log.Record where
  level := .info
  text :=
    "Compiled " ++ toString r.compiled.length ++ " objects, realized " ++
      toString r.realized.length ++ " targets, " ++ toString r.upToDate.length ++ " up to date"

/-- Build goals, or all targets if no goals are given. -/
def build (g : Graph) (o : BuildOptions) (goals? : Option (List Path)) : RunM BuildResult := do
  let order ← RunM.ofExcept ((g.targetOrder (goals?.getD g.defaultGoals)).mapError .build)
  let stale ← g.staleActions o (g.objectsOf order)
  compileStale o stale
  let result ← g.realizeAll o { compiled := stale.map (·.object.path) } order
  say (buildRecord result)
  return result

/-- Remove those of some products that are there. -/
def removeAll (o : BuildOptions) (removed : List Path) : List Path → RunM (List Path)
  | [] => pure removed
  | p :: ps => do
    let file := o.project / p
    if ← ask fun t ↦ (t.isFile file).mapError .file then
      change fun t ↦
        match t.remove file with
        | .ok t => (t, .ok ())
        | .error e => (t, .error (.file e))
      if o.verbose then print ("Removed " ++ toString p)
      removeAll o (removed ++ [p]) ps
    else removeAll o removed ps

/-- Remove everything that building may have left. -/
def clean (g : Graph) (o : BuildOptions) : RunM (List Path) := do
  let products ← RunM.ofExcept (g.products.mapError .namelessObject)
  let removed ← removeAll o [] products
  say ⟨.info, "Removed " ++ toString removed.length ++ " build products"⟩
  return removed

end Graph

end ModuleBuild
