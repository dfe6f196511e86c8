import ModuleBuild.Proofs.Build.Course
import ModuleBuild.Proofs.Graph.Refusing

/-!
# Builds that the user breaks off

No answer but that of a command says that the user has broken off the work (`Unbroken`): neither resolving a project
nor judging its files does. So a build is broken off exactly if its tasks are done, one after another, up to one whose
command the user breaks off (`runs_build_interrupted`).
-/

namespace ModuleBuild

open RunM

/-- The answer is not that the user has broken off. -/
abbrev Unbroken {α : Type} (x : Except Failure α) : Prop := FailsOnly (· ≠ .interrupted) x

theorem Unbroken.ne {α : Type} {x : Except Failure α} (h : Unbroken x) : x ≠ .error .interrupted :=
  fun hx ↦ h.of_error _ hx rfl

/-- Resolving a project is not broken off. -/
theorem Project.unbroken_resolve (p : Project) (t : FileTree) : Unbroken (p.resolve t).2 := by
  constructor
  rintro f hf rfl
  have hkind := (resolve_eq_error.mp hf).kind
  simp [Failure.isOfModules, Failure.isOfReferences, Failure.isOfFiles] at hkind

namespace Graph

variable {g : Graph} {o : BuildOptions} {t t' : FileTree} {commands : List (List String)}

theorem unbroken_judge (g : Graph) (t : FileTree) (project : Path) (x : ObjectRecord) :
    Unbroken (g.judge t project x) :=
  failsOnly_judge (by simp) (by simp) ..

theorem unbroken_targetIsStale (t : FileTree) (project : Path) (a : TargetAction) (remade : List Path) :
    Unbroken (targetIsStale t project a remade) :=
  failsOnly_targetIsStale (by simp) (by simp) ..

end Graph

/-! ### Tasks that are broken off -/

variable {o : BuildOptions} {t t₁ t' : FileTree} {task : Task} {tasks : List Task} {commands : List (List String)}

/-- Tasks are done one after another, up to one whose command the user breaks off. -/
inductive BreaksOff (o : BuildOptions) : List Task → FileTree → FileTree → List (List String) → Prop where
  | command {task : Task} {tasks : List Task} {t t₁ t' : FileTree} {command : List String}
      (directory : t.ensureDirectory (o.project / task.output).parent = (t₁, .ok ()))
      (words : task.command.words? = some command)
      (tool : o.tools t₁ o.project command = (t', .interrupted)) : BreaksOff o (task :: tasks) t t' [command]
  | later {task : Task} {tasks : List Task} {t t₁ t' : FileTree} {command : List String}
      {commands : List (List String)} (first : task.Succeeds o t t₁ command)
      (rest : BreaksOff o tasks t₁ t' commands) : BreaksOff o (task :: tasks) t t' (command :: commands)

/-- What a response means for a step is that the user has broken off only if he has. -/
theorem Response.answer_eq_interrupted {step : BuildStep} {command : List String} {r : Response} :
    r.answer step command = .error .interrupted ↔ r = .interrupted := by
  cases r with
  | cannotStart reason => simp [answer]
  | interrupted => simp [answer]
  | exited status stdout stderr =>
    rw [answer]
    split <;> simp

/-- A task is broken off if its command is. -/
theorem Task.runs_interrupted : Runs (task.run o) t commands (.error .interrupted) t' ↔
    ∃ t₁ command, t.ensureDirectory (o.project / task.output).parent = (t₁, .ok ()) ∧
      task.command.words? = some command ∧ o.tools t₁ o.project command = (t', .interrupted) ∧
      commands = [command] := by
  constructor
  · intro h
    have hperforms {step : BuildStep} {i : Invocation} {t₁ : FileTree}
        (h : PerformFails o step i t₁ t' .interrupted commands) :
        ∃ command, i.words? = some command ∧ o.tools t₁ o.project command = (t', .interrupted) ∧
          commands = [command] := by
      cases h with
      | command words tools fails =>
        obtain rfl := Response.answer_eq_interrupted.mp fails
        exact ⟨_, words, tools, rfl⟩
    cases task with
    | compile a =>
      cases Graph.compileFails_of_runs h with
      | command directory performs => exact ⟨_, _, directory, hperforms performs |>.choose_spec⟩
      | listing directory words tools succeeds finalize =>
        have hunbroken (u : FileTree) : Unbroken (Listing.finalize u o.project a.object).2 :=
          Listing.failsOnly_finalize (by simp) (by simp) (by simp) ..
        exact absurd (congrArg Prod.snd finalize) (hunbroken _).ne
    | realize a =>
      cases Graph.realizeFails_of_runs h with
      | command directory performs => exact ⟨_, _, directory, hperforms performs |>.choose_spec⟩
  · rintro ⟨t₁, command, directory, words, tool, rfl⟩
    have hdirectory : Runs (ensureParent (o.project / task.output)) t [] (.ok ()) t₁ :=
      runs_ensureParent_ok.mpr ⟨directory, rfl⟩
    have hperform (step : BuildStep) :
        Runs (perform o step task.command) t₁ [command] (.error .interrupted) t' := by
      have hruns : Runs (perform o step task.command) t₁ [command] _ _ := runs_perform words t₁
      rwa [tool] at hruns
    cases task with
    | compile a => exact hdirectory.silent_bind (hperform _).bind_error
    | realize a => exact Graph.runs_realize (hdirectory.silent_bind (hperform _))

/-- A task with something behind it is broken off if the task is, or what is behind it. -/
theorem BreaksOff.iff_first (task : Task) {x : RunM α} (hx : Total x)
    (hrest : ∀ t₁ command rest, task.Succeeds o t t₁ command →
      (Runs x t₁ rest (.error .interrupted) t' ↔ BreaksOff o tasks t₁ t' rest)) :
    Runs (task.run o >>= fun _ ↦ x) t commands (.error .interrupted) t' ↔
      BreaksOff o (task :: tasks) t t' commands := by
  constructor
  · intro h
    rcases h.of_bind_error (task.total_run o) fun _ ↦ hx with hfirst | ⟨_, t₁, _, rest, hfirst, h', rfl⟩
    · obtain ⟨t₁, command, directory, words, tool, rfl⟩ := Task.runs_interrupted.mp hfirst
      exact .command directory words tool
    · obtain ⟨command, hsucceeds, rfl⟩ := Task.runs_ok.mp hfirst
      exact .later hsucceeds ((hrest t₁ command rest hsucceeds).mp h')
  · intro h
    cases h with
    | command directory words tool =>
      exact (Task.runs_interrupted.mpr ⟨_, _, directory, words, tool, rfl⟩).bind_error
    | later first rest =>
      exact (Task.runs_ok.mpr ⟨_, first, rfl⟩).bind ((hrest _ _ _ first).mpr rest)

/-- What is behind a silent part is broken off if both are. -/
theorem RunM.iff_of_silent {x : RunM α} {f : α → RunM β} {a : α} (h : Runs x t [] (.ok a) t₁) (hf : Total (f a)) :
    Runs (x >>= f) t commands (.error .interrupted) t' ↔ Runs (f a) t₁ commands (.error .interrupted) t' := by
  refine ⟨fun hruns ↦ ?_, h.silent_bind⟩
  obtain ⟨commands', answer, t'', hrest⟩ := hf.runs t₁
  obtain ⟨rfl, rfl, rfl⟩ := (h.silent_bind hrest).unique hruns
  exact hrest

/-- After compiles that succeed tasks can be broken off, or one of the compiles is. -/
theorem breaksOff_compiles_append {as : List CompileAction} :
    BreaksOff o (as.map .compile ++ tasks) t t' commands ↔
      BreaksOff o (as.map .compile) t t' commands ∨
      ∃ t₁ compiles rest, Graph.CompilesAll o as t t₁ compiles ∧ BreaksOff o tasks t₁ t' rest ∧
        commands = compiles ++ rest := by
  constructor
  · intro h
    induction as generalizing t commands with
    | nil => exact .inr ⟨t, [], commands, .nil, h, rfl⟩
    | cons a as ih =>
      cases h with
      | command directory words tool => exact .inl (.command directory words tool)
      | later first rest =>
        rcases ih rest with hcompiles | ⟨t₁, compiles, others, hcompiles, hrest, rfl⟩
        · exact .inl (.later first hcompiles)
        · exact .inr ⟨t₁, _, others, .cons first hcompiles, hrest, rfl⟩
  · rintro (h | ⟨t₁, compiles, rest, hcompiles, h, rfl⟩)
    · generalize hlist : as.map Task.compile = list at h
      induction h generalizing as with
      | command directory words tool =>
        obtain ⟨a, as, rfl, rfl, -⟩ := List.map_eq_cons_iff.mp hlist
        exact .command directory words tool
      | later first rest ih =>
        obtain ⟨a, as, rfl, rfl, hrest⟩ := List.map_eq_cons_iff.mp hlist
        exact .later first (ih hrest)
    · induction hcompiles with
      | nil => exact h
      | cons first _ ih => exact .later first (ih h)

namespace Graph

variable {g : Graph}

theorem not_breaksOff_nil : ¬BreaksOff o [] t t' commands := fun h ↦ nomatch h

/-! ### Builds that are broken off -/

theorem runs_compileAll_interrupted {as : List CompileAction} :
    Runs (compileAll o as) t commands (.error .interrupted) t' ↔ BreaksOff o (as.map .compile) t t' commands := by
  induction as generalizing t commands with
  | nil =>
    constructor
    · intro h
      cases ((runs_pure () t).unique h).2.1
    · exact fun h ↦ absurd h not_breaksOff_nil
  | cons a as ih =>
    rw [compileAll]
    exact BreaksOff.iff_first (.compile a) (total_compileAll o as) fun _ _ _ _ ↦ ih

theorem runs_compileStale_interrupted {as : List CompileAction} :
    Runs (compileStale o as) t commands (.error .interrupted) t' ↔
      (as = [] ∨ 0 < o.jobs) ∧ BreaksOff o (as.map .compile) t t' commands := by
  unfold compileStale
  split
  · next h =>
    simp only [Bool.and_eq_true, Bool.not_eq_true', List.isEmpty_eq_false_iff, decide_eq_true_eq] at h
    constructor
    · intro hruns
      cases ((runs_throw Failure.noWorkers t).unique hruns).2.1
    · rintro ⟨has | hjobs, -⟩
      · exact absurd has h.1
      · omega
  · next h =>
    simp only [Bool.and_eq_true, Bool.not_eq_true', List.isEmpty_eq_false_iff, decide_eq_true_eq, not_and,
      Int.not_le] at h
    rw [runs_compileAll_interrupted]
    refine ⟨fun hbreaks ↦ ⟨?_, hbreaks⟩, And.right⟩
    by_cases has : as = []
    · exact .inl has
    · exact .inr (h has)

theorem runs_realizeAll_interrupted {result : BuildResult} {ps : List Path} :
    Runs (g.realizeAll o result ps) t commands (.error .interrupted) t' ↔
      BreaksOff o ((g.foundStale o result ps t).map .realize) t t' commands := by
  induction ps generalizing result t commands with
  | nil =>
    constructor
    · intro h
      cases ((runs_pure result t).unique h).2.1
    · exact fun h ↦ absurd h not_breaksOff_nil
  | cons p ps ih =>
    rw [realizeAll, foundStale]
    cases ha : g.targetActions.find? p with
    | none =>
      constructor
      · intro h
        cases ((runs_throw (Failure.registry (.undeclared p)) t).unique h).2.1
      · exact fun h ↦ absurd h not_breaksOff_nil
    | some a =>
      dsimp only
      have hask := runs_ask (fun t ↦ targetIsStale t o.project a (result.compiled ++ result.realized)) t
      have hunbroken := unbroken_targetIsStale t o.project a (result.compiled ++ result.realized)
      cases hstale : targetIsStale t o.project a (result.compiled ++ result.realized) with
      | error e =>
        rw [hstale] at hask hunbroken
        constructor
        · intro h
          obtain ⟨-, he, -⟩ := hask.bind_error.unique h
          exact absurd he.symm (Unbroken.ne hunbroken.error_of)
        · exact fun h ↦ absurd h not_breaksOff_nil
      | ok b =>
        rw [hstale] at hask
        have hnext := total_realizeAll_next g o result p ps a b
        refine (iff_of_silent hask hnext).trans ?_
        cases b with
        | false => exact ih
        | true =>
          refine BreaksOff.iff_first (.realize a) (total_realizeAll ..) fun t₁ command rest hsucceeds ↦ ?_
          rw [treeAfter_eq (runs_realize_ok.mpr ⟨command, hsucceeds, rfl⟩)]
          exact ih

/-- Judging objects is not broken off. -/
theorem unbroken_staleActions {ps : List Path} {answer : Except Failure (List CompileAction)}
    (h : Runs (g.staleActions o ps) t commands answer t') : Unbroken answer := by
  induction ps generalizing answer commands with
  | nil =>
    obtain ⟨-, rfl, -⟩ := (runs_pure [] t).unique h
    exact .ok _
  | cons p ps ih =>
    rw [staleActions] at h
    split at h
    · obtain ⟨-, rfl, -⟩ := (runs_throw _ t).unique h
      exact .error (by simp)
    · next a _ =>
      rcases (runs_bind (total_ask _) fun v ↦ (total_record _).bind fun _ ↦
        (total_staleActions g o ps).bind fun _ ↦ total_pure _).mp h with
        ⟨e, rfl, hask⟩ | ⟨v, t₁, _, _, hask, h₁, rfl⟩
      · obtain ⟨-, he, -⟩ := (runs_ask _ t).unique hask
        exact (he ▸ unbroken_judge ..).error_of
      obtain ⟨rfl, -, rfl⟩ := (runs_ask _ t).unique hask
      rcases (runs_bind (total_record _) fun _ ↦
        (total_staleActions g o ps).bind fun _ ↦ total_pure _).mp h₁ with
        ⟨e, rfl, hrecord⟩ | ⟨_, t₂, _, _, hrecord, h₂, rfl⟩
      · cases ((runs_record _ _).unique hrecord).2.1
      obtain ⟨rfl, -, rfl⟩ := (runs_record _ _).unique hrecord
      rcases (runs_bind (total_staleActions g o ps) fun _ ↦ total_pure _).mp h₂ with
        ⟨e, rfl, hstale⟩ | ⟨as, t₃, _, _, hstale, hpure, rfl⟩
      · exact (ih hstale).error_of
      · obtain ⟨-, rfl, -⟩ := (runs_pure _ t₃).unique hpure
        exact .ok _

/-- A build in which no stale objects are found is not broken off. -/
theorem unbroken_of_not_findsStale {goals? : Option (List Path)} {answer : Except Failure BuildResult}
    (hnone : ¬∃ order stale, g.FindsStale o.project (goals?.getD g.defaultGoals) t order stale)
    (h : Runs (g.build o goals?) t commands answer t') : Unbroken answer := by
  unfold build at h
  rcases (runs_bind (total_ofExcept _) fun order ↦ (total_staleActions ..).bind fun stale ↦
    total_afterJudging g o order stale).mp h with ⟨e, rfl, horder⟩ | ⟨order, t₁, _, _, horder, h₁, rfl⟩
  · obtain ⟨-, he, -⟩ := (runs_ofExcept _ t).unique horder
    exact (he ▸ FailsOnly.mapError _ (by simp) : Unbroken (.error _)).error_of
  obtain ⟨rfl, ho, rfl⟩ := (runs_ofExcept _ t).unique horder
  rcases (runs_bind (total_staleActions ..) fun stale ↦ total_afterJudging g o order stale).mp h₁ with
    ⟨e, rfl, hstale⟩ | ⟨stale, t₂, _, _, hstale, -, -⟩
  · exact (unbroken_staleActions hstale).error_of
  · obtain ⟨hjudges, -, -⟩ := runs_staleActions_ok.mp hstale
    exact absurd ⟨order, stale, mapError_eq_ok.mp ho.symm, hjudges⟩ hnone

theorem runs_afterJudging_interrupted {order : List Path} {stale : List CompileAction} :
    Runs (g.afterJudging o order stale) t commands (.error .interrupted) t' ↔
      (stale = [] ∨ 0 < o.jobs) ∧ BreaksOff o (g.tasks o order stale t) t t' commands := by
  have htail (result : BuildResult) :
      Total (do say (buildRecord result); return result : RunM BuildResult) :=
    (total_say _).bind fun _ ↦ total_pure _
  have hrealize {t₁ : FileTree} {rest : List (List String)} :
      Runs (g.realizeAll o { compiled := stale.map (·.object.path) } order >>= fun result ↦ do
          say (buildRecord result); return result) t₁ rest (.error .interrupted) t' ↔
        BreaksOff o ((g.foundStale o { compiled := stale.map (·.object.path) } order t₁).map .realize) t₁ t'
          rest := by
    rw [← runs_realizeAll_interrupted, runs_bind (total_realizeAll ..) htail]
    constructor
    · rintro (⟨e, he, h⟩ | ⟨result, t₂, _, _, -, h, -⟩)
      · exact Except.error.inj he ▸ h
      · cases ((Runs.silent_bind (runs_say _ t₂) (runs_pure result t₂)).unique h).2.1
    · exact fun h ↦ .inl ⟨_, rfl, h⟩
  unfold tasks
  rw [breaksOff_compiles_append]
  constructor
  · intro h
    rcases (runs_bind (total_compileStale ..) fun _ ↦ (total_realizeAll ..).bind htail).mp h with
      ⟨e, he, hcompile⟩ | ⟨_, t₁, compiles, rest, hcompile, hrest, rfl⟩
    · obtain rfl := Except.error.inj he
      obtain ⟨hjobs, hbreaks⟩ := runs_compileStale_interrupted.mp hcompile
      exact ⟨hjobs, .inl hbreaks⟩
    · obtain ⟨hjobs, hcompiles⟩ := runs_compileStale_ok.mp hcompile
      refine ⟨hjobs, .inr ⟨t₁, compiles, rest, hcompiles, ?_, rfl⟩⟩
      rw [reached, treeAfter_eq hcompile]
      exact hrealize.mp hrest
  · rintro ⟨hjobs, hbreaks | ⟨t₁, compiles, rest, hcompiles, hbreaks, rfl⟩⟩
    · exact (runs_compileStale_interrupted.mpr ⟨hjobs, hbreaks⟩).bind_error
    · have hcompile := runs_compileStale_ok.mpr ⟨hjobs, hcompiles⟩
      rw [reached, treeAfter_eq hcompile] at hbreaks
      exact hcompile.bind (hrealize.mpr hbreaks)

/-- The build of some goals is broken off by the user: its tasks are done, one after another, up to one whose command
he breaks off. -/
def IsBrokenOff (g : Graph) (o : BuildOptions) (goals : List Path) (t t' : FileTree)
    (commands : List (List String)) : Prop :=
  ∃ order stale, g.FindsStale o.project goals t order stale ∧ (stale = [] ∨ 0 < o.jobs) ∧
    BreaksOff o (g.tasks o order stale t) t t' commands

theorem runs_build_interrupted {goals? : Option (List Path)} :
    Runs (g.build o goals?) t commands (.error .interrupted) t' ↔
      g.IsBrokenOff o (goals?.getD g.defaultGoals) t t' commands := by
  constructor
  · intro h
    by_cases hnone : ∃ order stale, g.FindsStale o.project (goals?.getD g.defaultGoals) t order stale
    · obtain ⟨order, stale, hfinds⟩ := hnone
      exact ⟨order, stale, hfinds, runs_afterJudging_interrupted.mp (hfinds.runs h)⟩
    · exact absurd rfl (unbroken_of_not_findsStale hnone h).ne
  · rintro ⟨order, stale, hfinds, hbreaks⟩
    obtain ⟨commands', answer, t'', hruns⟩ := (total_build g o goals?).runs t
    obtain ⟨rfl, rfl, rfl⟩ := (hfinds.runs hruns).unique (runs_afterJudging_interrupted.mpr hbreaks)
    exact hruns

end Graph

end ModuleBuild
