import ModuleBuild.CommandLine.Session
import ModuleBuild.Proofs.Build.Cleaning
import ModuleBuild.Proofs.Build.Interruption
import ModuleBuild.Proofs.Build.Punctual

/-!
# The exit status

What the status with which the program ends tells. If the directory of a project and its root module are not what they
should be the program ends before anything is read (`findRoot_cases`). Otherwise what a command comes to is what its run
comes to (`Command.run_of_runs`), and this is put together from resolving the project and from building or cleaning it
(`runs_all`, `runs_clean_command`, `runs_graph`). So each status can be traced to what has happened: see `AllTells`,
`CleanTells` and `GraphTells`. In particular, when all has been built no target is older than what it is made from
(`fresh_of_build`).
-/

namespace ModuleBuild.CommandLine

open FileTree RunM

variable {t t' : FileTree} {c : Command} {a : Arguments} {root : Path} {s : Surroundings}
  {commands : List (List String)}

/-! ### Looking for the project -/

/-- The directory of a project is one, and its root module is a file. -/
structure HoldsProject (t : FileTree) (directory root : Path) : Prop where
  isDirectory : ∃ m, t.stat directory = .ok (.directory m)
  isFile : t.hasFile (directory / root) = true

/-- A project whose paths can be looked up is found if it is there, else there is an objection. -/
theorem findRoot_cases {directory : Path} (hdirectory : t.stat directory ≠ .error .nameTooLong)
    (hfile : ∀ m, t.stat directory = .ok (.directory m) →
      t.stat (directory / root) ≠ .error .nameTooLong) :
    HoldsProject t directory root ∧ findRoot t directory (.ok root) = .ok (.ok root) ∨
      ¬HoldsProject t directory root ∧
        ∃ objection, findRoot t directory (.ok root) = .ok (.error objection) := by
  have hprobe : t.probe directory = .ok (t.stat directory).toOption := probe_eq_ok.mpr ⟨hdirectory, rfl⟩
  unfold findRoot
  cases hstat : t.stat directory with
  | error r =>
    right
    refine ⟨fun h ↦ ?_, ?_⟩
    · obtain ⟨m, hm⟩ := h.isDirectory
      cases hstat.symm.trans hm
    · simp [pathExists, hprobe, hstat, Except.map, Except.toOption]
  | ok e =>
    cases e with
    | file bytes m =>
      right
      refine ⟨fun h ↦ ?_, ?_⟩
      · obtain ⟨m, hm⟩ := h.isDirectory
        cases hstat.symm.trans hm
      · simp [pathExists, FileTree.isDirectory, hprobe, hstat, Except.map, Except.toOption, Entry.isFile]
    | directory m =>
      have hroot := isFile_eq_hasFile (hfile m hstat)
      cases hfound : t.hasFile (directory / root) with
      | false =>
        right
        refine ⟨fun h ↦ ?_, ?_⟩
        · cases hfound.symm.trans h.isFile
        · simp [pathExists, FileTree.isDirectory, hprobe, hstat, hroot, hfound, Except.map, Except.toOption,
            Entry.isFile]
      | true =>
        left
        refine ⟨⟨⟨m, hstat⟩, hfound⟩, ?_⟩
        simp [pathExists, FileTree.isDirectory, hprobe, hstat, hroot, hfound, Except.map, Except.toOption,
          Entry.isFile]

/-! ### Commands as runs -/

/-- How a command builds and cleans. -/
def Arguments.buildOptions (a : Arguments) (s : Surroundings) (showProgress : Bool) : BuildOptions where
  project := a.projectDirectory s.directory
  jobs := jobsOrDefault a.jobs? s.processors
  showProgress
  verbose := a.verbose
  tools := s.tools

/-- How a command ends, by the answer of its run. -/
def Command.exitOf {α : Type} (c : Command) (verbose : Bool) : Except Failure α → Exit
  | .ok _ => .status 0
  | .error f => (c.conclude f verbose).1

/-- What comes out of a command is what its run comes to. -/
theorem Command.run_of_runs (hroot : findRoot s.tree (a.projectDirectory s.directory) a.root = .ok (.ok root))
    {answer : Except Failure String} (h : Runs (c.body a root s) s.tree commands answer t') :
    (c.run a s).exit = c.exitOf a.verbose answer ∧ (c.run a s).commands = commands ∧ (c.run a s).tree = t' := by
  obtain ⟨run', hrun, htree, hcommands⟩ := h.run { tree := s.tree } rfl
  have hbody : ExceptT.run (c.body a root s) ({ tree := s.tree } : Run) = (answer, run') := hrun
  unfold Command.run
  rw [hroot]
  dsimp only
  rw [hbody]
  cases answer <;> exact ⟨rfl, by simpa using hcommands, htree⟩

theorem runs_forM_say (rs : List Log.Record) (t : FileTree) : Runs (rs.forM say) t [] (.ok ⟨⟩) t := by
  induction rs with
  | nil => exact runs_pure ..
  | cons r rs ih => exact (runs_say r t).silent_bind ih

/-- Resolving a project as a part of a run. -/
def resolveGraph (s : Surroundings) (p : Project) : RunM Graph := do
  let (said, result) := resolve s p
  said.forM say
  return (← RunM.ofExcept result).graph

theorem runs_resolveGraph {p : Project} {result : Except Failure Resolved} (h : (resolve s p).2 = result)
    (t : FileTree) : Runs (resolveGraph s p) t [] (result.map (·.graph)) t := by
  unfold resolveGraph
  cases hresolve : resolve s p with
  | mk said result' =>
    obtain rfl : result' = result := by rwa [hresolve] at h
    refine (runs_forM_say said t).silent_bind ?_
    have hruns := runs_ofExcept result' t
    cases result' with
    | error f => exact hruns.bind_error
    | ok r => exact hruns.silent_bind (runs_pure ..)

/-! ### The three commands -/

/-- If the project does not resolve no command does anything. -/
theorem runs_body_of_error {f : Failure}
    (h : (resolve s (a.project root s (c ≠ .clean))).2 = .error f) :
    Runs (c.body a root s) s.tree [] (.error f) s.tree := by
  have hresolve := runs_resolveGraph h s.tree
  cases c with
  | all => exact hresolve.bind_error
  | clean => exact hresolve.bind_error
  | graph => exact hresolve.bind_error

/-- A text is made of what a part of a run comes to. -/
theorem exists_runs_text {α : Type} {x : RunM α} {answer : Except Failure α} (h : Runs x t commands answer t')
    (text : α → String) : ∃ last, Runs (do return text (← x)) t commands (answer.map fun _ ↦ last) t' := by
  cases answer with
  | error f => exact ⟨"", h.bind_error⟩
  | ok b => exact ⟨text b, h.bind_silent (runs_pure ..)⟩

/-- Else `all` comes to what the build comes to. -/
theorem runs_all {r : Resolved} (h : (resolve s (a.project root s true)).2 = .ok r)
    {answer : Except Failure BuildResult}
    (hbuild : Runs (r.graph.build (a.buildOptions s !a.noProgress) none) s.tree commands answer t') :
    ∃ last, Runs (Command.all.body a root s) s.tree commands (answer.map fun _ ↦ last) t' := by
  obtain ⟨last, hlast⟩ := exists_runs_text hbuild fun result ↦
    (if result.compiled.isEmpty && result.realized.isEmpty then Report.line "Nothing to be done for 'all'."
    else Report.success "Build successful!" ++
      "".intercalate (result.realized.map fun p ↦ Report.line ("  " ++ toString p))) ++
    Report.line "Build time: 0.00s"
  refine ⟨last, (runs_resolveGraph h s.tree).silent_bind ?_⟩
  dsimp only
  split
  · exact (runs_print ..).silent_bind ((runs_print ..).silent_bind hlast)
  · exact hlast

/-- `clean` comes to what cleaning comes to. -/
theorem runs_clean_command {r : Resolved} (h : (resolve s (a.project root s false)).2 = .ok r)
    {answer : Except Failure (List Path)}
    (hclean : Runs (r.graph.clean (a.buildOptions s false)) s.tree commands answer t') :
    ∃ last, Runs (Command.clean.body a root s) s.tree commands (answer.map fun _ ↦ last) t' := by
  obtain ⟨last, hlast⟩ := exists_runs_text hclean fun removed ↦
    Report.line ("Removed " ++ toString removed.length ++ " files.")
  exact ⟨last, (runs_resolveGraph h s.tree).silent_bind hlast⟩

/-- `graph` succeeds. -/
theorem runs_graph {r : Resolved} (h : (resolve s (a.project root s true)).2 = .ok r) :
    ∃ last, Runs (Command.graph.body a root s) s.tree [] (.ok last) s.tree :=
  ⟨_, (runs_resolveGraph h s.tree).silent_bind (runs_pure ..)⟩

/-! ### What the status tells -/

/-- Resolving succeeds unless the user breaks off or the project does not resolve. -/
theorem resolve_eq_ok {p : Project} {r : Resolved} :
    (resolve s p).2 = .ok r ↔ s.interrupted = false ∧ (p.resolve s.tree).2 = .ok r := by
  unfold resolve
  cases s.interrupted <;> simp

theorem resolve_eq_interrupted {p : Project} :
    (resolve s p).2 = .error .interrupted ↔ s.interrupted = true := by
  unfold resolve
  cases h : s.interrupted with
  | true => simp
  | false => simpa using (p.unbroken_resolve s.tree).ne

section

variable {α : Type} {verbose : Bool} {answer : Except Failure α}

/-- The status is 0 exactly if there is an answer. -/
theorem exitOf_eq_zero : c.exitOf verbose answer = .status 0 ↔ ∃ x, answer = .ok x := by
  cases answer with
  | ok x => simp [Command.exitOf]
  | error f =>
    simp only [Command.exitOf, Command.conclude, reduceCtorEq, exists_false, iff_false]
    split
    · split <;> simp [interruptedStatus]
    · split <;> simp [failureStatus]

/-- The status is that of an interruption exactly if the user has broken off, and the command makes provision for
it. -/
theorem exitOf_eq_interrupted :
    c.exitOf verbose answer = .status interruptedStatus ↔ c ≠ .graph ∧ answer = .error .interrupted := by
  cases answer with
  | ok x => simp [Command.exitOf, interruptedStatus]
  | error f =>
    simp only [Command.exitOf, Command.conclude, Except.error.injEq]
    split
    · split <;> simp_all
    · split <;> simp_all [failureStatus, interruptedStatus]

/-- Otherwise it is that of a failure. -/
theorem exitOf_eq_failure (hzero : c.exitOf verbose answer ≠ .status 0) (hbroken : answer ≠ .error .interrupted) :
    c.exitOf verbose answer = .status failureStatus := by
  rw [ne_eq, exitOf_eq_zero] at hzero
  cases answer with
  | ok x => simp at hzero
  | error f =>
    have hf : f ≠ .interrupted := fun hf ↦ hbroken (hf ▸ rfl)
    simp only [Command.exitOf, Command.conclude, if_neg hf]
    split <;> rfl

theorem exitOf_eq_failure_of_ne (hc : c ≠ .graph) (hzero : c.exitOf verbose answer ≠ .status 0)
    (hinterrupted : c.exitOf verbose answer ≠ .status interruptedStatus) :
    c.exitOf verbose answer = .status failureStatus :=
  exitOf_eq_failure hzero fun h ↦ hinterrupted (exitOf_eq_interrupted.mpr ⟨hc, h⟩)

end

/-- What the status of `all` tells. It is 0 exactly if the project resolves and the build succeeds, and 130 exactly if
the user breaks off, the program itself or one of its commands; else it is 1. If it is 0 each target is there, and all
that it is made from is there and not newer; provided that tools make targets punctually, and that these are different
files. -/
structure AllTells (a : Arguments) (root : Path) (s : Surroundings) (u : Outcome) : Prop where
  succeeds : u.exit = .status 0 ↔ ∃ r result, (resolve s (a.project root s true)).2 = .ok r ∧
    Runs (r.graph.build (a.buildOptions s !a.noProgress) none) s.tree u.commands (.ok result) u.tree
  brokenOff : u.exit = .status interruptedStatus ↔ s.interrupted = true ∨
    ∃ r, (resolve s (a.project root s true)).2 = .ok r ∧
      r.graph.IsBrokenOff (a.buildOptions s !a.noProgress) r.graph.defaultGoals s.tree u.tree u.commands
  fails : u.exit ≠ .status 0 → u.exit ≠ .status interruptedStatus → u.exit = .status failureStatus
  fresh : u.exit = .status 0 → ∀ r, (resolve s (a.project root s true)).2 = .ok r → s.tree.WellFormed →
    r.graph.TargetsApart s.tree (a.projectDirectory s.directory) →
    r.graph.Punctual (a.buildOptions s !a.noProgress) s.tree →
    ∀ p target, r.graph.targets.find? p = some target →
      ∃ m, u.tree.time? (a.projectDirectory s.directory / p) = some m ∧ ∀ q ∈ target.objects ++ target.prereqs,
        ∃ m', u.tree.time? (a.projectDirectory s.directory / q) = some m' ∧ m' ≤ m

/-- What the status of `clean` tells. It is 0 exactly if the project resolves and the paths of all products can be
looked up; then none of them is left. Else it is 1, or 130 if the user breaks off. -/
structure CleanTells (a : Arguments) (root : Path) (s : Surroundings) (u : Outcome) : Prop where
  succeeds : u.exit = .status 0 ↔ ∃ r ps, (resolve s (a.project root s false)).2 = .ok r ∧
    r.graph.products = .ok ps ∧ ∀ q ∈ ps, s.tree.stat (a.projectDirectory s.directory / q) ≠ .error .nameTooLong
  brokenOff : u.exit = .status interruptedStatus ↔ s.interrupted = true
  fails : u.exit ≠ .status 0 → u.exit ≠ .status interruptedStatus → u.exit = .status failureStatus
  cleared : u.exit = .status 0 → ∀ r ps, (resolve s (a.project root s false)).2 = .ok r →
    r.graph.products = .ok ps → ∀ q ∈ ps, u.tree.hasFile (a.projectDirectory s.directory / q) = false
  commands : u.commands = []

/-- What the status of `graph` tells, unless the user breaks off. It is 0 exactly if the project resolves, else 1.
Nothing is changed. -/
structure GraphTells (a : Arguments) (root : Path) (s : Surroundings) (u : Outcome) : Prop where
  succeeds : u.exit = .status 0 ↔ ∃ r, (resolve s (a.project root s true)).2 = .ok r
  fails : u.exit ≠ .status 0 → s.interrupted = false → u.exit = .status failureStatus
  commands : u.commands = []
  tree : u.tree = s.tree

/-- A build that succeeds leaves all targets fresh, if tools make them punctually. -/
theorem fresh_of_build {p : Project} {r : Resolved} {o : BuildOptions} {result : BuildResult}
    (hresolve : (p.resolve t).2 = .ok r) (hbuild : Runs (r.graph.build o none) t commands (.ok result) t')
    (ht : t.WellFormed) (hapart : r.graph.TargetsApart t o.project) (hpunctual : r.graph.Punctual o t)
    {q : Path} {target : Target} (htarget : r.graph.targets.find? q = some target) :
    ∃ m, t'.time? (o.project / q) = some m ∧
      ∀ i ∈ target.objects ++ target.prereqs, ∃ m', t'.time? (o.project / i) = some m' ∧ m' ≤ m := by
  obtain ⟨root, os, hresolves⟩ := Project.resolve_eq_ok.mp hresolve
  have hg := hresolves.coherent
  obtain ⟨order, stale, compiled, compiles, realizes, hbuilds⟩ := Graph.runs_build_ok.mp hbuild
  have hcontains : r.graph.targets.contains q := by
    rw [Table.contains, htarget]
    rfl
  have hq : q ∈ order := (Graph.mem_targetOrder hbuilds.targetOrder).mpr
    ⟨q, (Table.contains_iff_mem_keys ..).mp hcontains, .refl⟩
  obtain ⟨action, haction⟩ := hg.exists_targetAction hcontains
  obtain ⟨rfl, target', htarget', hobjects, hprereqs⟩ := hg.targetAction q action haction
  obtain rfl := Option.some.inj (htarget.symm.trans htarget')
  obtain ⟨m, hm, hinputs⟩ := hbuilds.settled_of_punctual hg ht hapart hpunctual _ hq action haction
  refine ⟨m, hm, fun i hi ↦ ?_⟩
  rw [← hobjects, ← hprereqs] at hi
  obtain ⟨m', hm', hnot⟩ := hinputs i hi
  refine ⟨m', hm', ?_⟩
  rw [Timestamp.lt_iff] at hnot
  rw [Timestamp.le_iff]
  omega

section

variable (hfound : findRoot s.tree (a.projectDirectory s.directory) a.root = .ok (.ok root))

include hfound

theorem all_tells : AllTells a root s (Command.all.run a s) := by
  cases hresolve : (resolve s (a.project root s true)).2 with
  | error f =>
    obtain ⟨hexit, -, -⟩ := Command.run_of_runs hfound (runs_body_of_error (c := .all) hresolve)
    refine ⟨?_, ?_, ?_, ?_⟩
    · rw [hexit, exitOf_eq_zero]
      simp [hresolve]
    · rw [hexit, exitOf_eq_interrupted, ← resolve_eq_interrupted (p := a.project root s true), hresolve]
      simp
    · rw [hexit]
      exact exitOf_eq_failure_of_ne (by simp)
    · rw [hexit, exitOf_eq_zero]
      simp
  | ok r =>
    obtain ⟨hunbroken, hproject⟩ := resolve_eq_ok.mp hresolve
    obtain ⟨commands, answer, t', hbuild⟩ :=
      (Graph.total_build r.graph (a.buildOptions s !a.noProgress) none).runs s.tree
    obtain ⟨last, hruns⟩ := runs_all hresolve hbuild
    obtain ⟨hexit, hcommands, htree⟩ := Command.run_of_runs hfound hruns
    have hzero : (Command.all.run a s).exit = .status 0 ↔ ∃ result, answer = .ok result := by
      rw [hexit, exitOf_eq_zero]
      cases answer <;> simp [Except.map]
    refine ⟨?_, ?_, ?_, ?_⟩
    · rw [hzero, hcommands, htree]
      constructor
      · rintro ⟨result, rfl⟩
        exact ⟨r, result, hresolve, hbuild⟩
      · rintro ⟨r', result, hresolve', hbuild'⟩
        obtain rfl := Except.ok.inj (hresolve.symm.trans hresolve')
        exact ⟨result, (hbuild'.unique hbuild).2.1⟩
    · rw [hexit, exitOf_eq_interrupted, hcommands, htree]
      have hanswer : answer.map (fun _ ↦ last) = .error .interrupted ↔ answer = .error .interrupted := by
        cases answer <;> simp [Except.map]
      rw [hanswer]
      constructor
      · rintro ⟨-, rfl⟩
        exact .inr ⟨r, hresolve, Graph.runs_build_interrupted.mp hbuild⟩
      · rintro (h | ⟨r', hresolve', hbroken⟩)
        · cases hunbroken.symm.trans h
        · obtain rfl := Except.ok.inj (hresolve.symm.trans hresolve')
          have hbuild' : Runs (r.graph.build (a.buildOptions s !a.noProgress) none) s.tree commands
              (.error .interrupted) t' := Graph.runs_build_interrupted.mpr hbroken
          exact ⟨by simp, (hbuild'.unique hbuild).2.1⟩
    · rw [hexit]
      exact exitOf_eq_failure_of_ne (by simp)
    · rw [hzero, htree]
      rintro ⟨result, rfl⟩ r' hresolve' ht hapart hpunctual q target htarget
      obtain rfl := Except.ok.inj (hresolve.symm.trans hresolve')
      exact fresh_of_build hproject hbuild ht hapart hpunctual htarget

theorem clean_tells : CleanTells a root s (Command.clean.run a s) := by
  cases hresolve : (resolve s (a.project root s false)).2 with
  | error f =>
    obtain ⟨hexit, hcommands, -⟩ := Command.run_of_runs hfound (runs_body_of_error (c := .clean) hresolve)
    refine ⟨?_, ?_, ?_, ?_, hcommands⟩
    · rw [hexit, exitOf_eq_zero]
      simp [hresolve]
    · rw [hexit, exitOf_eq_interrupted, ← resolve_eq_interrupted (p := a.project root s false), hresolve]
      simp
    · rw [hexit]
      exact exitOf_eq_failure_of_ne (by simp)
    · rw [hexit, exitOf_eq_zero]
      simp
  | ok r =>
    obtain ⟨hunbroken, hproject⟩ := resolve_eq_ok.mp hresolve
    obtain ⟨_, _, hresolves⟩ := Project.resolve_eq_ok.mp hproject
    obtain ⟨ps, hproducts⟩ := hresolves.coherent.exists_products
    by_cases hlookup : ∀ q ∈ ps, s.tree.stat (a.projectDirectory s.directory / q) ≠ .error .nameTooLong
    · obtain ⟨t', hremove, hclears⟩ := Graph.runs_removeAll (o := a.buildOptions s false) [] hlookup
      obtain ⟨last, hruns⟩ := runs_clean_command hresolve (Graph.runs_clean hproducts hremove)
      obtain ⟨hexit, hcommands, htree⟩ := Command.run_of_runs hfound hruns
      refine ⟨?_, ?_, ?_, ?_, hcommands⟩
      · rw [hexit, exitOf_eq_zero]
        exact iff_of_true ⟨last, rfl⟩ ⟨r, ps, hresolve, hproducts, hlookup⟩
      · rw [hexit, exitOf_eq_interrupted, hunbroken]
        simp [Except.map]
      · rw [hexit]
        exact exitOf_eq_failure_of_ne (by simp)
      · rintro - r' ps' hresolve' hproducts' q hq
        obtain rfl := Except.ok.inj (hresolve.symm.trans hresolve')
        obtain rfl := Except.ok.inj (hproducts.symm.trans hproducts')
        rw [htree, Bool.eq_false_iff, ne_eq, hclears.hasFile_iff]
        exact fun ⟨hfile, hoff⟩ ↦ hoff ⟨q, hq, hfile, rfl⟩
    · have hlong : ∃ q ∈ ps, s.tree.stat (a.projectDirectory s.directory / q) = .error .nameTooLong := by
        push Not at hlookup
        exact hlookup
      obtain ⟨e, t', hremove⟩ := Graph.fails_removeAll (o := a.buildOptions s false) [] hlong
      obtain ⟨last, hruns⟩ := runs_clean_command hresolve (Graph.runs_clean hproducts hremove)
      obtain ⟨hexit, hcommands, -⟩ := Command.run_of_runs hfound hruns
      refine ⟨?_, ?_, ?_, ?_, hcommands⟩
      · rw [hexit, exitOf_eq_zero]
        refine iff_of_false (by simp [Except.map]) ?_
        rintro ⟨r', ps', hresolve', hproducts', hlookup'⟩
        obtain rfl := Except.ok.inj (hresolve.symm.trans hresolve')
        obtain rfl := Except.ok.inj (hproducts.symm.trans hproducts')
        exact hlookup hlookup'
      · rw [hexit, exitOf_eq_interrupted, hunbroken]
        simp [Except.map]
      · rw [hexit]
        exact exitOf_eq_failure_of_ne (by simp)
      · rw [hexit, exitOf_eq_zero]
        simp [Except.map]

theorem graph_tells : GraphTells a root s (Command.graph.run a s) := by
  cases hresolve : (resolve s (a.project root s true)).2 with
  | error f =>
    obtain ⟨hexit, hcommands, htree⟩ := Command.run_of_runs hfound (runs_body_of_error (c := .graph) hresolve)
    refine ⟨?_, ?_, hcommands, htree⟩
    · rw [hexit, exitOf_eq_zero]
      simp [hresolve]
    · intro hzero hunbroken
      rw [hexit] at hzero ⊢
      apply exitOf_eq_failure hzero
      intro hf
      obtain rfl := Except.error.inj hf
      cases hunbroken.symm.trans (resolve_eq_interrupted.mp hresolve)
  | ok r =>
    obtain ⟨last, hruns⟩ := runs_graph hresolve
    obtain ⟨hexit, hcommands, htree⟩ := Command.run_of_runs hfound hruns
    exact ⟨iff_of_true hexit ⟨r, hresolve⟩, fun hzero ↦ absurd hexit hzero, hcommands, htree⟩

/-- A project that is there is not rejected. -/
theorem Command.exit_ne_rejected : (c.run a s).exit ≠ .status rejectedStatus := by
  unfold Command.run
  rw [hfound]
  dsimp only
  cases ExceptT.run (c.body a root s) ({ tree := s.tree } : Run) with
  | mk answer run' =>
    cases answer with
    | ok text => simp [rejectedStatus]
    | error f =>
      simp only [Command.conclude]
      split
      · split <;> simp [rejectedStatus, interruptedStatus]
      · split <;> simp [rejectedStatus, failureStatus]

end

/-- What the status of a command tells. -/
def Command.Tells (c : Command) (a : Arguments) (root : Path) (s : Surroundings) (u : Outcome) : Prop :=
  match c with
  | .all => AllTells a root s u
  | .clean => CleanTells a root s u
  | .graph => GraphTells a root s u

/-- Any command tells by its status what has become of it. -/
theorem Command.tells (hfound : findRoot s.tree (a.projectDirectory s.directory) a.root = .ok (.ok root)) :
    c.Tells a root s (c.run a s) := by
  cases c with
  | all => exact all_tells hfound
  | clean => exact clean_tells hfound
  | graph => exact graph_tells hfound

/-- A command that tells what has become of it ends with one of three statuses, unless `graph` has been broken off. -/
theorem Command.Tells.exit_cases {u : Outcome} (h : c.Tells a root s u) (hgraph : c = .graph → s.interrupted = false) :
    u.exit = .status 0 ∨ u.exit = .status failureStatus ∨ u.exit = .status interruptedStatus := by
  by_cases hzero : u.exit = .status 0
  · exact .inl hzero
  by_cases hinterrupted : u.exit = .status interruptedStatus
  · exact .inr (.inr hinterrupted)
  refine .inr (.inl ?_)
  cases c with
  | all => exact h.fails hzero hinterrupted
  | clean => exact h.fails hzero hinterrupted
  | graph => exact h.fails hzero (hgraph rfl)

/-- The surroundings of a rehearsal. -/
def rehearsal : Surroundings where
  tree := Rehearsal.tree
  directory := .here
  tools := Rehearsal.script.toolchain

set_option maxRecDepth 10000 in
/-- What can be computed of a rehearsal. -/
theorem computed_rehearsal :
    Request.ofList ["all"] = .run .all {} ∧ Rehearsal.tree.hasFile (.here / Project.defaultRoot) = true ∧
      (Rehearsal.tree.stat .here).toOption = some (.directory (.ofSeconds 100)) ∧
      (resolve rehearsal (({} : Arguments).project Project.defaultRoot rehearsal true)).2.toOption =
        some ⟨Rehearsal.graph, {}⟩ ∧
      (run ["all"] rehearsal).exit = .status 0 :=
  ⟨by decide +kernel, by decide +kernel, by decide +kernel, by decide +kernel, by decide +kernel⟩

/-- A project of two programs. One of them needs the other, which is there, but spelled otherwise. -/
def spelledProject : FileTree := .ofFiles (.ofSeconds 100) [
  ("main.ini", "[module]\ntarget=one\nprereqs=/two\nsubmodules=sub", .ofSeconds 50),
  ("sub/module.ini", "[module]\ntarget=two\nsources=b.c", .ofSeconds 50),
  ("sub/b.c", "", .ofSeconds 50),
  ("one", "", .ofSeconds 100),
  ("two", "", .ofSeconds 50)]

/-- Its graph. -/
def spelledTargets : Graph :=
  (⟨{}, [
    ⟨{ path := .ofString "main.ini", directory := .here, target := "one", prereqs := ["/two"],
       submodules := ["sub"] }, []⟩,
    ⟨{ path := .ofString "sub/module.ini", directory := .ofString "sub", target := "two",
       sources := ["b.c"] }, []⟩]⟩ : Blueprint).graph

/-- Tools that are at work later. -/
def laterScript : ToolScript := { Rehearsal.script with now := .ofSeconds 300 }

/-- The surroundings in which the project is built. -/
def spelledSurroundings : Surroundings where
  tree := spelledProject
  directory := .here
  tools := laterScript.toolchain

set_option maxRecDepth 10000 in
/-- What can be computed of building it. -/
theorem computed_spelledProject :
    (resolve spelledSurroundings (({} : Arguments).project Project.defaultRoot spelledSurroundings true)).2.toOption =
        some ⟨spelledTargets, {}⟩ ∧
      spelledProject.WellFormed ∧ spelledProject.NoLater (.ofSeconds 300) ∧ laterScript.Serves spelledTargets ∧
      spelledTargets.OutputsApart spelledProject .here ∧
      (run ["all"] spelledSurroundings).exit = .status 0 ∧
      (run ["all"] spelledSurroundings).tree.time? (.here / .ofString "one") = some (.ofSeconds 100) ∧
      (run ["all"] spelledSurroundings).tree.time? (.here / .ofString "/two") = some (.ofSeconds 300) :=
  ⟨by decide +kernel, by decide +kernel, by decide +kernel, by decide +kernel, by decide +kernel, by decide +kernel⟩

end ModuleBuild.CommandLine
