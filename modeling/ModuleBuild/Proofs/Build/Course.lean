import ModuleBuild.Proofs.Build.Failing
import ModuleBuild.Proofs.Graph.Coherence

/-!
# The course of a build, up to where it fails

Whether or not a build succeeds, what it does is a beginning of one list of tasks: the stale objects, in the
order in which targets name them, then the targets that are found stale when they are reached (`tasks`). All
tasks that are taken on succeed but the last (`Carries`), and each of them starts its own command at most once
(`Carries.commands_isPrefix`). `exists_course` says so of every run.
-/

namespace ModuleBuild

open RunM

/-- What a build has commands for. -/
inductive Task where
  | compile (a : CompileAction)
  | realize (a : TargetAction)

namespace Task

/-- The command of a task, as it is set up. -/
def command : Task → Invocation
  | compile a => a.command
  | realize a => a.command

/-- What the task makes. -/
def output : Task → Path
  | compile a => a.object.path
  | realize a => a.target

/-- The part of a run that is for the task. -/
def run (o : BuildOptions) : Task → RunM Unit
  | compile a => Graph.compile o a
  | realize a => Graph.realize o a

/-- The task is done by a command. -/
def Succeeds (o : BuildOptions) (t t' : FileTree) (command : List String) : Task → Prop
  | compile a => Graph.Compiles o a t t' command
  | realize a => Graph.Realizes o a t t' command

/-- The task is not done, and leaves a tree, a failure and the commands that it has started. -/
def Fails (o : BuildOptions) (t t' : FileTree) (e : Failure) (commands : List (List String)) :
    Task → Prop
  | compile a => Graph.CompileFails o a t t' e commands
  | realize a => Graph.RealizeFails o a t t' e commands

variable {o : BuildOptions} {task : Task} {t t' : FileTree} {commands : List (List String)}
  {command : List String} {e : Failure}

theorem total_run (o : BuildOptions) (task : Task) : Total (task.run o) := by
  cases task with
  | compile a => exact Graph.total_compile o a
  | realize a => exact Graph.total_realize o a

theorem runs_ok : Runs (task.run o) t commands (.ok ()) t' ↔
    ∃ command, task.Succeeds o t t' command ∧ commands = [command] := by
  cases task with
  | compile a => exact Graph.runs_compile_ok
  | realize a => exact Graph.runs_realize_ok

theorem fails_of_runs (h : Runs (task.run o) t commands (.error e) t') :
    task.Fails o t t' e commands := by
  cases task with
  | compile a => exact Graph.compileFails_of_runs h
  | realize a => exact Graph.realizeFails_of_runs h

/-- A task is done by its own command. -/
theorem Succeeds.words? (h : task.Succeeds o t t' command) :
    task.command.words? = some command := by
  cases task with
  | compile a =>
    obtain ⟨-, -, -, -, -, hwords, -⟩ := h
    exact hwords
  | realize a =>
    obtain ⟨-, -, -, hwords, -⟩ := h
    exact hwords

/-- A task that fails has started its own command, or none. -/
theorem Fails.commands_isPrefix (h : task.Fails o t t' e commands) :
    commands.map some <+: [task.command.words?] := by
  have hperforms {step : BuildStep} {i : Invocation} {t₁ : FileTree}
      (h : PerformFails o step i t₁ t' e commands) : commands.map some <+: [i.words?] := by
    cases h with
    | program noWords => exact List.nil_prefix
    | command words tools fails => rw [words]; exact List.prefix_rfl
  cases task with
  | compile a =>
    cases h with
    | directory => exact List.nil_prefix
    | command directory performs => exact hperforms performs
    | listing directory words => rw [command, words]; exact List.prefix_rfl
  | realize a =>
    cases h with
    | directory => exact List.nil_prefix
    | command directory performs => exact hperforms performs

end Task

/-- Tasks are carried out one after another. All succeed, or all but the last. -/
inductive Carries (o : BuildOptions) :
    List Task → FileTree → FileTree → List (List String) → Prop where
  | done {t : FileTree} : Carries o [] t t []
  | succeeds {task : Task} {tasks : List Task} {t t₁ t' : FileTree} {command : List String}
      {commands : List (List String)} (first : task.Succeeds o t t₁ command)
      (rest : Carries o tasks t₁ t' commands) : Carries o (task :: tasks) t t' (command :: commands)
  | fails {task : Task} {t t' : FileTree} {e : Failure} {commands : List (List String)}
      (last : task.Fails o t t' e commands) : Carries o [task] t t' commands

namespace Carries

variable {o : BuildOptions} {tasks tasks' : List Task} {t t₁ t' : FileTree}
  {commands commands' : List (List String)}

/-- The commands that are started are those of the tasks, up to some point. -/
theorem commands_isPrefix (h : Carries o tasks t t' commands) :
    commands.map some <+: tasks.map (·.command.words?) := by
  induction h with
  | done => exact List.prefix_rfl
  | succeeds first _ ih =>
    rw [List.map_cons, List.map_cons, first.words?]
    exact (List.prefix_cons_inj _).mpr ih
  | fails last => exact last.commands_isPrefix

/-- Tasks can be carried out after compiles that succeed. -/
theorem after_compiles {as : List CompileAction} (h : Graph.CompilesAll o as t t₁ commands)
    (h' : Carries o tasks t₁ t' commands') :
    Carries o (as.map .compile ++ tasks) t t' (commands ++ commands') := by
  induction h with
  | nil => exact h'
  | cons first _ ih => exact .succeeds first (ih h')

/-- All but the last of some compiles that are carried out succeed. -/
theorem compilesAll {as : List CompileAction}
    (h : Carries o tasks t t' commands) (hbegins : tasks <+: as.map .compile ++ tasks')
    (hlong : as.length < tasks.length) :
    ∃ compiled, Graph.CompilesAll o as t compiled (commands.take as.length) := by
  induction h generalizing as with
  | done => simp at hlong
  | succeeds first rest ih =>
    cases as with
    | nil => exact ⟨_, .nil⟩
    | cons a as =>
      rw [List.map_cons, List.cons_append] at hbegins
      obtain ⟨rfl, hrest⟩ := List.cons_prefix_cons.mp hbegins
      obtain ⟨compiled, hcompiles⟩ := ih hrest (by simpa using hlong)
      exact ⟨compiled, .cons first hcompiles⟩
  | fails last =>
    obtain rfl : as = [] := by
      simpa using hlong
    exact ⟨_, .nil⟩

end Carries

namespace Graph

/-- The tree that is left by a part of a run that succeeds. -/
def treeAfter {α : Type} (x : RunM α) (t : FileTree) : Option FileTree :=
  match x.run.run { tree := t } with
  | (.ok _, run) => some run.tree
  | (.error _, _) => none

/-- Those of some targets that are found stale when they are reached. None is reached after a failure. -/
def foundStale (g : Graph) (o : BuildOptions) :
    BuildResult → List Path → FileTree → List TargetAction
  | _, [], _ => []
  | result, p :: ps, t =>
    match g.targetActions.find? p with
    | none => []
    | some a =>
      match targetIsStale t o.project a (result.compiled ++ result.realized) with
      | .error _ => []
      | .ok false => g.foundStale o { result with upToDate := result.upToDate ++ [p] } ps t
      | .ok true =>
        a :: (treeAfter (realize o a) t).elim []
          (g.foundStale o { result with realized := result.realized ++ [p] } ps)

/-- The targets of an order that are found stale when they are reached, after stale objects have been
compiled. -/
def reached (g : Graph) (o : BuildOptions) (order : List Path) (stale : List CompileAction)
    (t : FileTree) : List TargetAction :=
  (treeAfter (compileStale o stale) t).elim []
    (g.foundStale o { compiled := stale.map (·.object.path) } order)

/-- What is to be done for an order of targets: stale objects are compiled, then targets made. -/
def tasks (g : Graph) (o : BuildOptions) (order : List Path) (stale : List CompileAction)
    (t : FileTree) : List Task :=
  stale.map .compile ++ (g.reached o order stale t).map .realize

variable {g : Graph} {o : BuildOptions} {t t' : FileTree} {commands : List (List String)}

/-- The targets that are found stale are some of those that are gone through, with their actions. -/
theorem foundStale_sublist (hg : g.Coherent) (result : BuildResult) (ps : List Path) (t : FileTree) :
    ((g.foundStale o result ps t).map (·.target)).Sublist ps ∧
      ∀ a ∈ g.foundStale o result ps t, g.targetActions.find? a.target = some a := by
  induction ps generalizing result t with
  | nil => exact ⟨.slnil, by simp [foundStale]⟩
  | cons p ps ih =>
    rw [foundStale]
    cases ha : g.targetActions.find? p with
    | none => exact ⟨List.nil_sublist _, by simp⟩
    | some a =>
      obtain ⟨htarget, -⟩ := hg.targetAction p a ha
      dsimp only
      cases targetIsStale t o.project a (result.compiled ++ result.realized) with
      | error e => exact ⟨List.nil_sublist _, by simp⟩
      | ok isStale =>
        cases isStale with
        | false => exact ⟨.cons p (ih _ t).1, (ih _ t).2⟩
        | true =>
          dsimp only
          cases treeAfter (realize o a) t with
          | none => exact ⟨by simp [htarget], by simpa [htarget] using ha⟩
          | some t₁ =>
            obtain ⟨hsublist, hactions⟩ := ih { result with realized := result.realized ++ [p] } t₁
            refine ⟨by simpa [htarget] using hsublist, fun a' ha' ↦ ?_⟩
            rcases List.mem_cons.mp ha' with rfl | ha'
            · exact htarget ▸ ha
            · exact hactions a' ha'

theorem reached_sublist (hg : g.Coherent) (order : List Path) (stale : List CompileAction)
    (t : FileTree) : ((g.reached o order stale t).map (·.target)).Sublist order ∧
      ∀ a ∈ g.reached o order stale t, g.targetActions.find? a.target = some a := by
  rw [reached]
  cases treeAfter (compileStale o stale) t with
  | none => exact ⟨List.nil_sublist _, by simp⟩
  | some compiled => exact foundStale_sublist hg ..

theorem treeAfter_eq {α : Type} {x : RunM α} {answer : Except Failure α}
    (h : Runs x t commands answer t') : treeAfter x t = answer.toOption.map fun _ ↦ t' := by
  obtain ⟨run', hrun, rfl, -⟩ := h.run { tree := t } rfl
  rw [treeAfter, hrun]
  cases answer <;> rfl

/-- A task with something behind it: the task fails, or what is behind it goes on from the tree it leaves. -/
theorem carries_first {α : Type} (task : Task) {x : RunM α} {answer : Except Failure α} (hx : Total x)
    (h : Runs (task.run o >>= fun _ ↦ x) t commands answer t') :
    treeAfter (task.run o) t = none ∧ Carries o [task] t t' commands ∨
      ∃ t₁ rest, treeAfter (task.run o) t = some t₁ ∧ Runs x t₁ rest answer t' ∧
        ∀ {tasks}, Carries o tasks t₁ t' rest → Carries o (task :: tasks) t t' commands := by
  rcases (runs_bind (task.total_run o) fun _ ↦ hx).mp h with
    ⟨e, rfl, hfirst⟩ | ⟨_, t₁, _, rest, hfirst, hrest, rfl⟩
  · exact .inl ⟨treeAfter_eq hfirst, .fails (Task.fails_of_runs hfirst)⟩
  · obtain ⟨command, hsucceeds, rfl⟩ := Task.runs_ok.mp hfirst
    exact .inr ⟨t₁, rest, treeAfter_eq hfirst, hrest, .succeeds hsucceeds⟩

/-- Compiles are carried out up to the first that fails. -/
theorem carries_compileAll {as : List CompileAction} {answer : Except Failure Unit}
    (h : Runs (compileAll o as) t commands answer t') :
    ∃ done, done <+: as ∧ Carries o (done.map .compile) t t' commands := by
  induction as generalizing t commands with
  | nil =>
    obtain ⟨rfl, -, rfl⟩ := (runs_pure () t).unique h
    exact ⟨[], List.nil_prefix, .done⟩
  | cons a as ih =>
    rw [compileAll] at h
    rcases carries_first (.compile a) (total_compileAll o as) h with
      ⟨-, hfails⟩ | ⟨t₁, rest, -, hrest, hsucceeds⟩
    · exact ⟨[a], (List.prefix_cons_inj a).mpr List.nil_prefix, hfails⟩
    · obtain ⟨done, hbegins, hcarries⟩ := ih hrest
      exact ⟨a :: done, (List.prefix_cons_inj a).mpr hbegins, hsucceeds hcarries⟩

theorem runs_compileStale {as : List CompileAction} {answer : Except Failure Unit}
    (h : Runs (compileStale o as) t commands answer t') :
    ∃ done, done <+: as ∧ Carries o (done.map .compile) t t' commands := by
  unfold compileStale at h
  split at h
  · obtain ⟨rfl, -, rfl⟩ := (runs_throw _ t).unique h
    exact ⟨[], List.nil_prefix, .done⟩
  · exact carries_compileAll h

/-- Stale targets are made up to the first that fails. -/
theorem carries_realizeAll {result : BuildResult} {ps : List Path}
    {answer : Except Failure BuildResult}
    (h : Runs (g.realizeAll o result ps) t commands answer t') :
    Carries o ((g.foundStale o result ps t).map .realize) t t' commands := by
  induction ps generalizing result t commands with
  | nil =>
    obtain ⟨rfl, -, rfl⟩ := (runs_pure result t).unique h
    exact .done
  | cons p ps ih =>
    rw [realizeAll] at h
    rw [foundStale]
    cases ha : g.targetActions.find? p with
    | none =>
      rw [ha] at h
      obtain ⟨rfl, -, rfl⟩ := (runs_throw _ t).unique h
      exact .done
    | some a =>
      rw [ha] at h
      dsimp only at h ⊢
      rcases (runs_bind (total_ask _) (total_realizeAll_next g o result p ps a)).mp h with
        ⟨e, rfl, hask⟩ | ⟨b, t₁, _, _, hask, hrest, rfl⟩
      · obtain ⟨rfl, he, rfl⟩ := (runs_ask _ t).unique hask
        rw [← he]
        exact .done
      obtain ⟨rfl, hb, rfl⟩ := (runs_ask _ t).unique hask
      rw [← hb]
      cases b with
      | false => exact ih hrest
      | true =>
        dsimp only
        rcases carries_first (.realize a) (total_realizeAll ..) hrest with
          ⟨hnone, hfails⟩ | ⟨t₂, others, hsome, hothers, hsucceeds⟩
        · rw [Task.run] at hnone
          rw [hnone]
          exact hfails
        · rw [Task.run] at hsome
          rw [hsome]
          exact hsucceeds (ih hothers)

/-- Judging objects starts nothing and changes nothing. -/
theorem silent_staleActions {ps : List Path} {answer : Except Failure (List CompileAction)}
    (h : Runs (g.staleActions o ps) t commands answer t') : commands = [] ∧ t' = t := by
  induction ps generalizing answer commands with
  | nil =>
    obtain ⟨rfl, -, rfl⟩ := (runs_pure [] t).unique h
    exact ⟨rfl, rfl⟩
  | cons p ps ih =>
    rw [staleActions] at h
    split at h
    · obtain ⟨rfl, -, rfl⟩ := (runs_throw _ t).unique h
      exact ⟨rfl, rfl⟩
    · next a _ =>
      rcases (runs_bind (total_ask _) fun v ↦ (total_record _).bind fun _ ↦
        (total_staleActions g o ps).bind fun _ ↦ total_pure _).mp h with
        ⟨e, rfl, hask⟩ | ⟨v, t₁, _, _, hask, h₁, rfl⟩
      · obtain ⟨rfl, -, rfl⟩ := (runs_ask _ t).unique hask
        exact ⟨rfl, rfl⟩
      obtain ⟨rfl, -, rfl⟩ := (runs_ask _ t).unique hask
      rcases (runs_bind (total_record _) fun _ ↦
        (total_staleActions g o ps).bind fun _ ↦ total_pure _).mp h₁ with
        ⟨e, rfl, hrecord⟩ | ⟨_, t₂, _, _, hrecord, h₂, rfl⟩
      · exact absurd ((runs_record _ _).unique hrecord).2.1 (by simp)
      obtain ⟨rfl, -, rfl⟩ := (runs_record _ _).unique hrecord
      rcases (runs_bind (total_staleActions g o ps) fun _ ↦ total_pure _).mp h₂ with
        ⟨e, rfl, hstale⟩ | ⟨as, t₃, _, _, hstale, hpure, rfl⟩
      · exact ih hstale
      · obtain ⟨-, rfl, rfl⟩ := runs_staleActions_ok.mp hstale
        obtain ⟨rfl, -, rfl⟩ := (runs_pure _ _).unique hpure
        exact ⟨rfl, rfl⟩

/-- The rest of a build, once the stale objects are known. -/
def afterJudging (g : Graph) (o : BuildOptions) (order : List Path) (stale : List CompileAction) :
    RunM BuildResult := do
  compileStale o stale
  let result ← g.realizeAll o { compiled := stale.map (·.object.path) } order
  say (buildRecord result)
  return result

theorem total_afterJudging (g : Graph) (o : BuildOptions) (order : List Path)
    (stale : List CompileAction) : Total (g.afterJudging o order stale) :=
  (total_compileStale ..).bind fun _ ↦ (total_realizeAll ..).bind fun _ ↦
    (total_say _).bind fun _ ↦ total_pure _

/-- Stale objects are compiled, and if this succeeds targets are made. -/
theorem runs_afterJudging {order : List Path} {stale : List CompileAction}
    {answer : Except Failure BuildResult}
    (h : Runs (g.afterJudging o order stale) t commands answer t') :
    (∃ e, Runs (compileStale o stale) t commands (.error e) t') ∨
      ∃ compiled compiles realizes answer', Runs (compileStale o stale) t compiles (.ok ()) compiled ∧
        Runs (g.realizeAll o { compiled := stale.map (·.object.path) } order) compiled realizes answer' t' ∧
        commands = compiles ++ realizes := by
  have htail (result : BuildResult) :
      Total (do say (buildRecord result); return result : RunM BuildResult) :=
    (total_say _).bind fun _ ↦ total_pure _
  rcases (runs_bind (total_compileStale ..) fun _ ↦ (total_realizeAll ..).bind htail).mp h with
    ⟨e, rfl, hcompile⟩ | ⟨_, compiled, compiles, realizes, hcompile, h₁, rfl⟩
  · exact .inl ⟨e, hcompile⟩
  refine .inr ⟨compiled, compiles, realizes, ?_⟩
  rcases (runs_bind (total_realizeAll ..) htail).mp h₁ with
    ⟨e, rfl, hrealize⟩ | ⟨result, t₂, realizes, _, hrealize, h₂, rfl⟩
  · exact ⟨_, hcompile, hrealize, rfl⟩
  · obtain ⟨rfl, -, rfl⟩ :=
      (Runs.silent_bind (runs_say (buildRecord result) t₂) (runs_pure result t₂)).unique h₂
    rw [List.append_nil]
    exact ⟨_, hcompile, hrealize, rfl⟩

/-- Goals have an order, and these of the objects they need are stale. -/
structure FindsStale (g : Graph) (project : Path) (goals : List Path) (t : FileTree) (order : List Path)
    (stale : List CompileAction) : Prop where
  targetOrder : g.targetOrder goals = .ok order
  judges : Judges g t project (g.objectsOf order) stale

/-- A build in which the stale objects are found. -/
theorem FindsStale.runs {goals? : Option (List Path)} {order : List Path} {stale : List CompileAction}
    {answer : Except Failure BuildResult}
    (h : g.FindsStale o.project (goals?.getD g.defaultGoals) t order stale)
    (hruns : Runs (g.build o goals?) t commands answer t') :
    Runs (g.afterJudging o order stale) t commands answer t' := by
  obtain ⟨commands', answer', t'', hrest⟩ := (total_afterJudging g o order stale).runs t
  have horder := runs_ofExcept ((g.targetOrder (goals?.getD g.defaultGoals)).mapError .build) t
  rw [mapError_eq_ok.mpr h.targetOrder] at horder
  have hbuild : Runs (g.build o goals?) t commands' answer' t'' := by
    unfold build
    rw [mapError_eq_ok.mpr h.targetOrder]
    exact horder.silent_bind ((runs_staleActions_ok.mpr ⟨h.judges, rfl, rfl⟩).silent_bind hrest)
  obtain ⟨rfl, rfl, rfl⟩ := hbuild.unique hruns
  exact hrest

/-- A build in which no stale objects are found does nothing. -/
theorem silent_of_not_findsStale {goals? : Option (List Path)} {answer : Except Failure BuildResult}
    (hnone : ¬∃ order stale, g.FindsStale o.project (goals?.getD g.defaultGoals) t order stale)
    (h : Runs (g.build o goals?) t commands answer t') : commands = [] ∧ t' = t := by
  unfold build at h
  rcases (runs_bind (total_ofExcept _) fun order ↦ (total_staleActions ..).bind fun stale ↦
    total_afterJudging g o order stale).mp h with ⟨e, rfl, horder⟩ | ⟨order, t₁, _, _, horder, h₁, rfl⟩
  · obtain ⟨rfl, -, rfl⟩ := (runs_ofExcept _ t).unique horder
    exact ⟨rfl, rfl⟩
  obtain ⟨rfl, ho, rfl⟩ := (runs_ofExcept _ t).unique horder
  rcases (runs_bind (total_staleActions ..) fun stale ↦ total_afterJudging g o order stale).mp h₁ with
    ⟨e, rfl, hstale⟩ | ⟨stale, t₂, _, _, hstale, -, -⟩
  · exact silent_staleActions hstale
  · obtain ⟨hjudges, -, -⟩ := runs_staleActions_ok.mp hstale
    exact absurd ⟨order, stale, mapError_eq_ok.mp ho.symm, hjudges⟩ hnone

/-- What is done once stale objects have been found: some of the tasks, from the first on, are carried out. -/
structure Course (g : Graph) (o : BuildOptions) (goals : List Path) (t t' : FileTree)
    (commands : List (List String)) (order : List Path) (stale : List CompileAction)
    (done : List Task) : Prop extends g.FindsStale o.project goals t order stale where
  isPrefix : done <+: g.tasks o order stale t
  carries : Carries o done t t' commands

/-- A build that has been run, whatever it came to: nothing is done if the goals have no order or their objects
cannot be judged; else the tasks are carried out, from the first on. -/
theorem exists_course {goals? : Option (List Path)} {run run' : Run}
    {answer : Except Failure BuildResult}
    (h : (g.build o goals?).run.run run = (answer, run')) :
    ∃ commands, run'.commands = run.commands ++ commands ∧
      ((commands = [] ∧ run'.tree = run.tree ∧
        ¬∃ order stale, g.FindsStale o.project (goals?.getD g.defaultGoals) run.tree order stale) ∨
      ∃ order stale done, g.Course o (goals?.getD g.defaultGoals) run.tree run'.tree commands order
        stale done) := by
  obtain ⟨commands, hruns, hcommands⟩ := (total_build g o goals?).of_run h
  refine ⟨commands, hcommands, ?_⟩
  by_cases hnone : ∃ order stale, g.FindsStale o.project (goals?.getD g.defaultGoals) run.tree order stale
  · obtain ⟨order, stale, hfinds⟩ := hnone
    refine .inr ⟨order, stale, ?_⟩
    rcases runs_afterJudging (hfinds.runs hruns) with
      ⟨e, hcompile⟩ | ⟨compiled, compiles, realizes, answer', hcompile, hrealize, rfl⟩
    · obtain ⟨done, hbegins, hcarries⟩ := runs_compileStale hcompile
      exact ⟨_, hfinds, (hbegins.map _).trans (List.prefix_append ..), hcarries⟩
    · refine ⟨_, hfinds, List.prefix_rfl, ?_⟩
      rw [tasks, reached, treeAfter_eq hcompile]
      exact .after_compiles (runs_compileStale_ok.mp hcompile).2 (carries_realizeAll hrealize)
  · obtain ⟨rfl, htree⟩ := silent_of_not_findsStale hnone hruns
    exact .inl ⟨rfl, htree, hnone⟩

end Graph

end ModuleBuild
