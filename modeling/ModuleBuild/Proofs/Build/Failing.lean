import ModuleBuild.Proofs.Build.Steps

/-!
# How the steps of a build fail

A compile fails before its command is started, by its command, or when its listing cannot be read afterwards
(`CompileFails`); making a target fails in the first two ways (`RealizeFails`). Each way tells the failure, the
tree that is left, and what was started.
-/

namespace ModuleBuild

open RunM

variable {α β : Type} {o : BuildOptions} {t t' : FileTree} {commands : List (List String)} {e : Failure}

/-- Two parts fail if the first does, or the second after the success of the first. -/
theorem RunM.Runs.of_bind_error {x : RunM α} {f : α → RunM β}
    (h : Runs (x >>= f) t commands (.error e) t') (hx : Total x) (hf : ∀ a, Total (f a)) :
    Runs x t commands (.error e) t' ∨ ∃ a t₁ commands₁ commands₂, Runs x t commands₁ (.ok a) t₁ ∧
      Runs (f a) t₁ commands₂ (.error e) t' ∧ commands = commands₁ ++ commands₂ := by
  rcases (runs_bind hx hf).mp h with ⟨e', he, h⟩ | h
  · obtain rfl := Except.error.inj he
    exact .inl h
  · exact .inr h

/-- The command of a step is not started, or does not succeed. -/
inductive PerformFails (o : BuildOptions) (step : BuildStep) (i : Invocation) (t : FileTree) :
    FileTree → Failure → List (List String) → Prop where
  | program (noWords : i.words? = none) : PerformFails o step i t t .notOneProgram []
  | command {t' : FileTree} {command : List String} {r : Response} {e : Failure}
      (words : i.words? = some command) (tools : o.tools t o.project command = (t', r))
      (fails : r.answer step command = .error e) : PerformFails o step i t t' e [command]

theorem performFails_of_runs {step : BuildStep} {i : Invocation}
    (h : Runs (perform o step i) t commands (.error e) t') :
    PerformFails o step i t t' e commands := by
  cases hwords : i.words? with
  | none =>
    obtain ⟨rfl, he, rfl⟩ := (runs_perform_of_none hwords t).unique h
    obtain rfl := Except.error.inj he
    exact .program hwords
  | some command =>
    obtain ⟨rfl, he, rfl⟩ := (runs_perform hwords t).unique h
    exact .command hwords rfl he.symm

theorem ensureDirectory_of_runs {p : Path}
    (h : Runs (ensureParent p) t commands (.error e) t') :
    commands = [] ∧ ∃ f, t.ensureDirectory p.parent = (t', .error f) ∧ e = .file f := by
  obtain ⟨rfl, he, rfl⟩ := (runs_ensureParent p t).unique h
  refine ⟨rfl, ?_⟩
  cases hanswer : (t.ensureDirectory p.parent).2 with
  | ok u => simp [hanswer] at he
  | error f =>
    refine ⟨f, Prod.ext rfl hanswer, ?_⟩
    simpa [hanswer] using he

/-! ### What files alone decide -/

section

variable {P : Failure → Prop}

/-- Finishing an object fails where files fail, where a listing is no text, or for an object without a name. -/
theorem Listing.failsOnly_finalize (hfile : ∀ f, P (.file f)) (htext : ∀ f, P (.notUtf8 f))
    (hname : ∀ f, P (.namelessObject f)) (t : FileTree) (project : Path) (x : ObjectRecord) :
    FailsOnly P (finalize t project x).2 := by
  unfold finalize
  extract_lets planned
  have hplanned : FailsOnly P planned := by
    refine .bind (.mapError _ hname) fun l ↦ .bind (.mapError _ hfile) fun b ↦ ?_
    split
    · exact .bind (.bind (.mapError _ hfile) fun _ ↦ .mapError _ htext) fun text ↦ .bind (.mapError _ hname) fun d ↦
        .bind (.mapError _ hfile) fun t ↦ .ok _
    · exact .ok _
  clear_value planned
  rcases planned with f | _ | ⟨listing, descriptor, t'⟩
  · exact hplanned.error_of
  · exact .ok _
  · dsimp only
    split
    · exact .error (hfile _)
    · exact .ok _

namespace Graph

/-- Judging an object fails where files fail, or for want of a rule. -/
theorem failsOnly_judge (hfile : ∀ f, P (.file f)) (hbuild : ∀ f, P (.build f)) (g : Graph) (t : FileTree)
    (project : Path) (x : ObjectRecord) : FailsOnly P (g.judge t project x) := by
  have hinputs (made? : Option Timestamp) (ps : List Path) : FailsOnly P (judgeInputs t project x made? ps) := by
    induction ps with
    | nil => exact .ok _
    | cons p ps ih =>
      rw [judgeInputs]
      refine .bind (.mapError _ hfile) fun m? ↦ ?_
      cases m? with
      | none =>
        dsimp only
        split
        · exact .error (hbuild _)
        · exact .ok _
      | some m =>
        dsimp only
        split
        · exact .ok _
        · exact ih
  exact .bind (.mapError _ hfile) fun made? ↦ hinputs ..

/-- Finding out whether a target is stale fails where files fail, or for want of a rule. -/
theorem failsOnly_targetIsStale (hfile : ∀ f, P (.file f)) (hbuild : ∀ f, P (.build f)) (t : FileTree)
    (project : Path) (a : TargetAction) (remade : List Path) : FailsOnly P (targetIsStale t project a remade) := by
  have hinputs (made? : Option Timestamp) (stale : Bool) (ps : List Path) :
      FailsOnly P (staleInputs t project a.target made? remade stale ps) := by
    induction ps generalizing stale with
    | nil => exact .ok _
    | cons p ps ih =>
      rw [staleInputs]
      refine .bind (.mapError _ hfile) fun m? ↦ ?_
      cases m? with
      | none => exact .error (hbuild _)
      | some m => exact ih _
  exact .bind (.mapError _ hfile) fun made? ↦ hinputs ..

end Graph

end

/-! ### Steps that fail -/

namespace Graph

/-- An object is not compiled: its directory is not to be had, its command is not started or does not succeed,
or what the command has left cannot be made into a descriptor. -/
inductive CompileFails (o : BuildOptions) (a : CompileAction) (t : FileTree) :
    FileTree → Failure → List (List String) → Prop where
  | directory {t' : FileTree} {f : FileError}
      (directory : t.ensureDirectory (o.project / a.object.path).parent = (t', .error f)) :
      CompileFails o a t t' (.file f) []
  | command {t₁ t' : FileTree} {e : Failure} {commands : List (List String)}
      (directory : t.ensureDirectory (o.project / a.object.path).parent = (t₁, .ok ()))
      (performs : PerformFails o (.compile a.object.source) a.command t₁ t' e commands) :
      CompileFails o a t t' e commands
  | listing {t₁ t₂ t' : FileTree} {command : List String} {r : Response} {e : Failure}
      (directory : t.ensureDirectory (o.project / a.object.path).parent = (t₁, .ok ()))
      (words : a.command.words? = some command) (tools : o.tools t₁ o.project command = (t₂, r))
      (succeeds : r.IsSuccess) (finalize : Listing.finalize t₂ o.project a.object = (t', .error e)) :
      CompileFails o a t t' e [command]

/-- A target is not made: its directory is not to be had, or its command is not started or does not
succeed. -/
inductive RealizeFails (o : BuildOptions) (a : TargetAction) (t : FileTree) :
    FileTree → Failure → List (List String) → Prop where
  | directory {t' : FileTree} {f : FileError}
      (directory : t.ensureDirectory (o.project / a.target).parent = (t', .error f)) :
      RealizeFails o a t t' (.file f) []
  | command {t₁ t' : FileTree} {e : Failure} {commands : List (List String)}
      (directory : t.ensureDirectory (o.project / a.target).parent = (t₁, .ok ()))
      (performs : PerformFails o (stepOf a) a.command t₁ t' e commands) :
      RealizeFails o a t t' e commands

theorem compileFails_of_runs {a : CompileAction}
    (h : Runs (compile o a) t commands (.error e) t') : CompileFails o a t t' e commands := by
  unfold compile at h
  rcases h.of_bind_error (total_ensureParent _) fun _ ↦ (total_perform ..).bind fun _ ↦
    (total_change _).bind fun d? ↦ total_remark a d? with hparent | ⟨_, t₁, _, _, hparent, h₁, rfl⟩
  · obtain ⟨rfl, f, hdirectory, rfl⟩ := ensureDirectory_of_runs hparent
    exact .directory hdirectory
  obtain ⟨hdirectory, rfl⟩ := runs_ensureParent_ok.mp hparent
  rcases h₁.of_bind_error (total_perform ..) fun _ ↦ (total_change _).bind fun d? ↦
    total_remark a d? with hperform | ⟨_, t₂, _, _, hperform, h₂, rfl⟩
  · exact .command hdirectory (performFails_of_runs hperform)
  obtain ⟨command, r, hwords, htools, hr, rfl⟩ := runs_perform_ok.mp hperform
  rcases h₂.of_bind_error (total_change _) fun d? ↦ total_remark a d? with
    hchange | ⟨d?, t₃, _, _, -, hremark, -⟩
  · obtain ⟨rfl, he, rfl⟩ := (runs_change _ t₂).unique hchange
    exact .listing hdirectory hwords htools hr (Prod.ext rfl he.symm)
  · exact absurd ((runs_remark a d? t₃).unique hremark).2.1 (by simp)

theorem realizeFails_of_runs {a : TargetAction}
    (h : Runs (realize o a) t commands (.error e) t') : RealizeFails o a t t' e commands := by
  obtain ⟨commands', answer, t'', h'⟩ := Total.runs
    ((total_ensureParent (o.project / a.target)).bind fun _ ↦ total_perform o (stepOf a) a.command) t
  obtain ⟨rfl, rfl, rfl⟩ := (runs_realize h').unique h
  rcases h'.of_bind_error (total_ensureParent _) fun _ ↦ total_perform .. with
    hparent | ⟨_, t₁, _, _, hparent, hperform, rfl⟩
  · obtain ⟨rfl, f, hdirectory, rfl⟩ := ensureDirectory_of_runs hparent
    exact .directory hdirectory
  · obtain ⟨hdirectory, rfl⟩ := runs_ensureParent_ok.mp hparent
    exact .command hdirectory (performFails_of_runs hperform)

end Graph

end ModuleBuild
