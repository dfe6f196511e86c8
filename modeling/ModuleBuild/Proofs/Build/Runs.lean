import ModuleBuild.Build.Run
import ModuleBuild.Proofs.Answers

/-!
# What parts of runs come to

What a part of a run comes to hangs on the file tree alone: it answers or fails, leaves another tree, and
starts commands, whatever was done, printed and said before (`Runs`, `Total`). Parts are put together by
`runs_bind`, so that a run opens into the runs of its parts.
-/

namespace ModuleBuild.RunM

variable {α β : Type} {x : RunM α} {f : α → RunM β} {t t' : FileTree}
  {commands : List (List String)} {answer : Except Failure α}

/-- From a tree a part of a run starts commands, comes to an answer or a failure, and leaves a tree. -/
structure Runs (x : RunM α) (t : FileTree) (commands : List (List String)) (answer : Except Failure α)
    (t' : FileTree) : Prop where
  run : ∀ run : Run, run.tree = t → ∃ run' : Run,
    x.run.run run = (answer, run') ∧ run'.tree = t' ∧ run'.commands = run.commands ++ commands

/-- What a part of a run comes to hangs on the tree alone. -/
structure Total (x : RunM α) : Prop where
  runs : ∀ t, ∃ commands answer t', Runs x t commands answer t'

/-- A run that has been made is the one that the tree calls for. -/
theorem Runs.of_run {run run' : Run} {answer' : Except Failure α}
    (h : Runs x run.tree commands answer t') (hrun : x.run.run run = (answer', run')) :
    answer' = answer ∧ run'.tree = t' ∧ run'.commands = run.commands ++ commands := by
  obtain ⟨run'', hrun', htree, hcommands⟩ := h.run run rfl
  obtain ⟨rfl, rfl⟩ := Prod.mk.inj (hrun.symm.trans hrun')
  exact ⟨rfl, htree, hcommands⟩

/-- A part comes to one thing only. -/
theorem Runs.unique {commands' : List (List String)} {answer' : Except Failure α} {t'' : FileTree}
    (h : Runs x t commands answer t') (h' : Runs x t commands' answer' t'') :
    commands' = commands ∧ answer' = answer ∧ t'' = t' := by
  obtain ⟨run', hrun, htree, hcommands⟩ := h'.run { tree := t } rfl
  have hstart : Runs x ({ tree := t } : Run).tree commands answer t' := h
  obtain ⟨hanswer, htree', hcommands'⟩ := hstart.of_run hrun
  exact ⟨by simpa using hcommands.symm.trans hcommands', hanswer, htree.symm.trans htree'⟩

/-- A run that has been made tells what the part comes to. -/
theorem Total.of_run (h : Total x) {run run' : Run} (hrun : x.run.run run = (answer, run')) :
    ∃ commands, Runs x run.tree commands answer run'.tree ∧
      run'.commands = run.commands ++ commands := by
  obtain ⟨commands, answer', t', hruns⟩ := h.runs run.tree
  obtain ⟨rfl, rfl, hcommands⟩ := hruns.of_run hrun
  exact ⟨commands, hruns, hcommands⟩

theorem run_bind (x : RunM α) (f : α → RunM β) (run : Run) :
    (x >>= f).run.run run =
      match x.run.run run with
      | (.ok a, run') => (f a).run.run run'
      | (.error e, run') => (.error e, run') := by
  cases h : x.run.run run with
  | mk answer run' =>
    simp only [ExceptT.run, bind, ExceptT.bind, ExceptT.mk, ExceptT.bindCont, StateT.run,
      StateT.bind] at h ⊢
    rw [h]
    cases answer <;> rfl

theorem Runs.bind {a : α} {commands' : List (List String)} {answer : Except Failure β}
    {t'' : FileTree} (h : Runs x t commands (.ok a) t') (h' : Runs (f a) t' commands' answer t'') :
    Runs (x >>= f) t (commands ++ commands') answer t'' := by
  refine ⟨fun run htree ↦ ?_⟩
  obtain ⟨run₁, hrun₁, htree₁, hcommands₁⟩ := h.run run htree
  obtain ⟨run₂, hrun₂, htree₂, hcommands₂⟩ := h'.run run₁ htree₁
  refine ⟨run₂, ?_, htree₂, ?_⟩
  · rw [run_bind, hrun₁]
    exact hrun₂
  · rw [hcommands₂, hcommands₁, List.append_assoc]

/-- A first part that starts no commands. -/
theorem Runs.silent_bind {a : α} {answer : Except Failure β} {t'' : FileTree}
    (h : Runs x t [] (.ok a) t') (h' : Runs (f a) t' commands answer t'') :
    Runs (x >>= f) t commands answer t'' :=
  h.bind h'

/-- A second part that starts no commands. -/
theorem Runs.bind_silent {a : α} {answer : Except Failure β} {t'' : FileTree}
    (h : Runs x t commands (.ok a) t') (h' : Runs (f a) t' [] answer t'') :
    Runs (x >>= f) t commands answer t'' := by
  simpa using h.bind h'

theorem Runs.bind_error {e : Failure} (h : Runs x t commands (.error e) t') :
    Runs (x >>= f) t commands (.error e) t' := by
  refine ⟨fun run htree ↦ ?_⟩
  obtain ⟨run₁, hrun₁, htree₁, hcommands₁⟩ := h.run run htree
  refine ⟨run₁, ?_, htree₁, hcommands₁⟩
  rw [run_bind, hrun₁]

/-- Two parts come to what the second comes to after the first, unless the first fails. -/
theorem runs_bind {answer : Except Failure β} {t'' : FileTree} (hx : Total x) (hf : ∀ a, Total (f a)) :
    Runs (x >>= f) t commands answer t'' ↔
      (∃ e, answer = .error e ∧ Runs x t commands (.error e) t'') ∨
      ∃ a t' commands₁ commands₂, Runs x t commands₁ (.ok a) t' ∧
        Runs (f a) t' commands₂ answer t'' ∧ commands = commands₁ ++ commands₂ := by
  constructor
  · intro h
    obtain ⟨commands₁, answer₁, t', h₁⟩ := hx.runs t
    cases answer₁ with
    | error e =>
      obtain ⟨rfl, rfl, rfl⟩ := (h₁.bind_error (f := f)).unique h
      exact .inl ⟨e, rfl, h₁⟩
    | ok a =>
      obtain ⟨commands₂, answer₂, t₂, h₂⟩ := (hf a).runs t'
      obtain ⟨rfl, rfl, rfl⟩ := (h₁.bind h₂).unique h
      exact .inr ⟨a, t', commands₁, commands₂, h₁, h₂, rfl⟩
  · rintro (⟨e, rfl, h⟩ | ⟨a, t', commands₁, commands₂, h₁, h₂, rfl⟩)
    · exact h.bind_error
    · exact h₁.bind h₂

/-- Two parts that succeed do so one after the other. -/
theorem Runs.of_bind {b : β} {t'' : FileTree} (h : Runs (x >>= f) t commands (.ok b) t'')
    (hx : Total x) (hf : ∀ a, Total (f a)) :
    ∃ a t' commands₁ commands₂, Runs x t commands₁ (.ok a) t' ∧
      Runs (f a) t' commands₂ (.ok b) t'' ∧ commands = commands₁ ++ commands₂ :=
  ((runs_bind hx hf).mp h).resolve_left (by rintro ⟨e, h, -⟩; simp at h)

theorem Total.bind (hx : Total x) (hf : ∀ a, Total (f a)) : Total (x >>= f) := by
  refine ⟨fun t ↦ ?_⟩
  obtain ⟨commands₁, answer₁, t', h₁⟩ := hx.runs t
  cases answer₁ with
  | error e => exact ⟨_, _, _, h₁.bind_error⟩
  | ok a =>
    obtain ⟨commands₂, answer₂, t₂, h₂⟩ := (hf a).runs t'
    exact ⟨_, _, _, h₁.bind h₂⟩

/-! ### The parts that runs are made of -/


theorem runs_pure (a : α) (t : FileTree) : Runs (pure a) t [] (.ok a) t :=
  ⟨fun run htree ↦ ⟨run, rfl, htree, by simp⟩⟩

theorem runs_throw (e : Failure) (t : FileTree) : Runs (throw e : RunM α) t [] (.error e) t :=
  ⟨fun run htree ↦ ⟨run, rfl, htree, by simp⟩⟩

theorem runs_say (r : Log.Record) (t : FileTree) : Runs (say r) t [] (.ok ()) t :=
  ⟨fun _ htree ↦ ⟨_, rfl, htree, by simp⟩⟩

theorem runs_print (line : String) (t : FileTree) : Runs (print line) t [] (.ok ()) t :=
  ⟨fun _ htree ↦ ⟨_, rfl, htree, by simp⟩⟩

theorem runs_ofExcept (answer : Except Failure α) (t : FileTree) :
    Runs (ofExcept answer) t [] answer t := by
  cases answer with
  | error e => exact runs_throw e t
  | ok a => exact runs_pure a t

theorem runs_ask (f : FileTree → Except Failure α) (t : FileTree) : Runs (ask f) t [] (f t) t := by
  refine ⟨fun run htree ↦ ?_⟩
  obtain ⟨run', hrun, h⟩ := (runs_ofExcept (f t) t).run run htree
  refine ⟨run', ?_, h⟩
  rw [← hrun, ← htree]
  rfl

theorem runs_change (f : FileTree → FileTree × Except Failure α) (t : FileTree) :
    Runs (change f) t [] (f t).2 (f t).1 := by
  refine ⟨fun run htree ↦ ?_⟩
  obtain ⟨run', hrun, h⟩ :=
    (runs_ofExcept (f t).2 (f t).1).run { run with tree := (f t).1 } rfl
  refine ⟨run', ?_, h⟩
  rw [← hrun, ← htree]
  rfl

theorem runs_start (o : BuildOptions) (command : List String) (t : FileTree) :
    Runs (start o command) t [command] (.ok (o.tools t o.project command).2)
      (o.tools t o.project command).1 := by
  refine ⟨fun run htree ↦ ?_⟩
  subst htree
  exact ⟨_, rfl, rfl, rfl⟩

theorem total_pure (a : α) : Total (pure a) := ⟨fun t ↦ ⟨_, _, _, runs_pure a t⟩⟩

theorem total_throw (e : Failure) : Total (throw e : RunM α) := ⟨fun t ↦ ⟨_, _, _, runs_throw e t⟩⟩

theorem total_say (r : Log.Record) : Total (say r) := ⟨fun t ↦ ⟨_, _, _, runs_say r t⟩⟩

theorem total_ofExcept (answer : Except Failure α) : Total (ofExcept answer) :=
  ⟨fun t ↦ ⟨_, _, _, runs_ofExcept answer t⟩⟩

theorem total_ask (f : FileTree → Except Failure α) : Total (ask f) :=
  ⟨fun t ↦ ⟨_, _, _, runs_ask f t⟩⟩

theorem total_change (f : FileTree → FileTree × Except Failure α) : Total (change f) :=
  ⟨fun t ↦ ⟨_, _, _, runs_change f t⟩⟩

end ModuleBuild.RunM
