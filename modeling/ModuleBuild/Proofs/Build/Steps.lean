import ModuleBuild.Proofs.Build.Runs

/-!
# Builds, step by step

A build that succeeds, told by what its steps do to the file tree: the verdicts on objects (`Judges`), the
compiles one after another (`CompilesAll`), then the targets in their order, each made or kept
(`RealizesAll`). `runs_build` puts them together; what is printed and said is left out.
-/

namespace ModuleBuild

open RunM

/-- What the end of a command means for the step. -/
def Response.answer (step : BuildStep) (command : List String) : Response → Except Failure Unit
  | .cannotStart reason => .error (.build (.cannotRun step (command.headD "") reason))
  | .interrupted => .error .interrupted
  | .exited status stdout stderr =>
    if status = 0 then .ok () else .error (.build (.failed step stderr stdout))

/-- The command has succeeded. -/
def Response.IsSuccess (r : Response) : Prop := ∃ stdout stderr, r = .exited 0 stdout stderr

theorem Response.answer_eq_ok {step : BuildStep} {command : List String} {r : Response} :
    r.answer step command = .ok () ↔ r.IsSuccess := by
  cases r with
  | cannotStart reason => simp [answer, IsSuccess]
  | interrupted => simp [answer, IsSuccess]
  | exited status stdout stderr =>
    by_cases h : status = 0
    · simp [answer, IsSuccess, h]
    · simp [answer, IsSuccess, h]

/-- What ends a step has not succeeded. -/
theorem Response.not_isSuccess {step : BuildStep} {command : List String} {r : Response} {e : Failure}
    (h : r.answer step command = .error e) : ¬r.IsSuccess := by
  intro hr
  rw [answer_eq_ok.mpr hr] at h
  cases h

namespace RunM

variable {o : BuildOptions} {step : BuildStep} {i : Invocation} {t t' : FileTree}
  {commands : List (List String)}

/-- A step starts its command, and ends as the command does. -/
theorem runs_perform {command : List String} (h : i.words? = some command) (t : FileTree) :
    Runs (perform o step i) t [command] ((o.tools t o.project command).2.answer step command)
      (o.tools t o.project command).1 := by
  unfold perform
  rw [h]
  dsimp only
  split
  all_goals
    first
    | refine Runs.silent_bind (runs_print ..) (Runs.silent_bind (runs_say ..) ?_)
    | refine Runs.silent_bind (runs_say ..) ?_
    refine Runs.bind_silent (runs_start o command t) ?_
    cases hr : (o.tools t o.project command).2 with
    | cannotStart reason => exact runs_throw ..
    | interrupted => exact runs_throw ..
    | exited status stdout stderr =>
      dsimp only
      by_cases hs : status = 0
      · rw [if_neg (by simp [hs]), Response.answer, if_pos hs]
        split
        · exact runs_print ..
        · exact runs_pure ..
      · rw [if_pos hs, Response.answer, if_neg hs]
        exact runs_throw ..

theorem runs_perform_of_none (h : i.words? = none) (t : FileTree) :
    Runs (perform o step i) t [] (.error .notOneProgram) t := by
  unfold perform
  rw [h]
  exact runs_throw ..

theorem total_perform (o : BuildOptions) (step : BuildStep) (i : Invocation) :
    Total (perform o step i) := by
  refine ⟨fun t ↦ ?_⟩
  cases h : i.words? with
  | none => exact ⟨_, _, _, runs_perform_of_none h t⟩
  | some command => exact ⟨_, _, _, runs_perform h t⟩

/-- A step succeeds if its command does. -/
theorem runs_perform_ok :
    Runs (perform o step i) t commands (.ok ()) t' ↔ ∃ command r, i.words? = some command ∧
      o.tools t o.project command = (t', r) ∧ r.IsSuccess ∧ commands = [command] := by
  constructor
  · intro h
    cases hw : i.words? with
    | none => simpa using ((runs_perform_of_none hw t).unique h).2.1
    | some command =>
      obtain ⟨rfl, hanswer, rfl⟩ := (runs_perform hw t).unique h
      exact ⟨command, _, rfl, rfl, Response.answer_eq_ok.mp hanswer.symm, rfl⟩
  · rintro ⟨command, r, hw, htools, hr, rfl⟩
    have hruns : Runs (perform o step i) t [command]
        ((o.tools t o.project command).2.answer step command) (o.tools t o.project command).1 :=
      runs_perform hw t
    rw [htools] at hruns
    exact Response.answer_eq_ok.mpr hr ▸ hruns

theorem runs_ensureParent (p : Path) (t : FileTree) :
    Runs (ensureParent p) t [] ((t.ensureDirectory p.parent).2.mapError .file)
      (t.ensureDirectory p.parent).1 :=
  runs_change _ t

theorem total_ensureParent (p : Path) : Total (ensureParent p) := total_change _

theorem runs_ensureParent_ok {p : Path} :
    Runs (ensureParent p) t commands (.ok ()) t' ↔
      t.ensureDirectory p.parent = (t', .ok ()) ∧ commands = [] := by
  constructor
  · intro h
    obtain ⟨hcommands, hanswer, htree⟩ := (runs_ensureParent p t).unique h
    exact ⟨Prod.ext htree.symm (mapError_eq_ok.mp hanswer.symm), hcommands⟩
  · rintro ⟨h, rfl⟩
    have hruns := runs_ensureParent p t
    rw [h] at hruns
    exact hruns

end RunM

namespace Graph

variable {g : Graph} {o : BuildOptions} {t t' : FileTree} {commands : List (List String)}

/-! ### Compiling -/

/-- In a tree in which the object's directory is there, the object is compiled and its descriptor made. -/
def Finishes (o : BuildOptions) (a : CompileAction) (t t' : FileTree) (command : List String) : Prop :=
  ∃ t₁ r d?, a.command.words? = some command ∧ o.tools t o.project command = (t₁, r) ∧
    r.IsSuccess ∧ Listing.finalize t₁ o.project a.object = (t', .ok d?)

/-- An object is compiled by a command. -/
def Compiles (o : BuildOptions) (a : CompileAction) (t t' : FileTree) (command : List String) : Prop :=
  ∃ t₁, t.ensureDirectory (o.project / a.object.path).parent = (t₁, .ok ()) ∧
    Finishes o a t₁ t' command

/-- Objects are compiled one after another. -/
inductive CompilesAll (o : BuildOptions) :
    List CompileAction → FileTree → FileTree → List (List String) → Prop where
  | nil {t : FileTree} : CompilesAll o [] t t []
  | cons {a : CompileAction} {as : List CompileAction} {t t₁ t' : FileTree} {command : List String}
      {commands : List (List String)} (first : Compiles o a t t₁ command)
      (rest : CompilesAll o as t₁ t' commands) : CompilesAll o (a :: as) t t' (command :: commands)

theorem runs_remark (a : CompileAction) (d? : Option Path) (t : FileTree) :
    Runs (match d? with | none => say (Listing.noListingRecord a.object) | some _ => pure ()) t []
      (.ok ()) t := by
  cases d? with
  | none => exact runs_say ..
  | some d => exact runs_pure ..

theorem total_remark (a : CompileAction) (d? : Option Path) :
    Total (match d? with | none => say (Listing.noListingRecord a.object) | some _ => pure ()) :=
  ⟨fun t ↦ ⟨_, _, _, runs_remark a d? t⟩⟩

theorem total_compile (o : BuildOptions) (a : CompileAction) : Total (compile o a) :=
  (total_ensureParent _).bind fun _ ↦ (total_perform ..).bind fun _ ↦
    (total_change _).bind fun d? ↦ total_remark a d?

theorem runs_compile_ok {a : CompileAction} :
    Runs (compile o a) t commands (.ok ()) t' ↔
      ∃ command, Compiles o a t t' command ∧ commands = [command] := by
  unfold compile
  constructor
  · intro h
    obtain ⟨_, t₁, _, _, hruns, h₁, rfl⟩ := h.of_bind (total_ensureParent _) fun _ ↦
      (total_perform ..).bind fun _ ↦ (total_change _).bind fun d? ↦ total_remark a d?
    obtain ⟨hparent, rfl⟩ := runs_ensureParent_ok.mp hruns
    obtain ⟨_, t₂, _, _, hperform, h₂, rfl⟩ := h₁.of_bind (total_perform ..) fun _ ↦
      (total_change _).bind fun d? ↦ total_remark a d?
    obtain ⟨command, r, hw, htools, hr, rfl⟩ := runs_perform_ok.mp hperform
    obtain ⟨d?, t₃, _, _, hchange, h₃, rfl⟩ :=
      h₂.of_bind (total_change _) fun d? ↦ total_remark a d?
    obtain ⟨rfl, hd, rfl⟩ := (runs_change _ t₂).unique hchange
    obtain ⟨rfl, -, rfl⟩ := (runs_remark a d? _).unique h₃
    exact ⟨command, ⟨t₁, hparent, t₂, r, d?, hw, htools, hr, Prod.ext rfl hd.symm⟩, by simp⟩
  · rintro ⟨command, ⟨t₁, hparent, t₂, r, d?, hw, htools, hr, hfinalize⟩, rfl⟩
    have hchange := runs_change (fun t ↦ Listing.finalize t o.project a.object) t₂
    rw [hfinalize] at hchange
    refine Runs.silent_bind (runs_ensureParent_ok.mpr ⟨hparent, rfl⟩) ?_
    refine Runs.bind_silent (runs_perform_ok.mpr ⟨command, r, hw, htools, hr, rfl⟩) ?_
    exact hchange.silent_bind (runs_remark a d? t')

theorem total_compileAll (o : BuildOptions) (as : List CompileAction) : Total (compileAll o as) := by
  induction as with
  | nil => exact total_pure _
  | cons a as ih => exact (total_compile o a).bind fun _ ↦ ih

theorem runs_compileAll_ok {as : List CompileAction} :
    Runs (compileAll o as) t commands (.ok ()) t' ↔ CompilesAll o as t t' commands := by
  induction as generalizing t commands with
  | nil =>
    constructor
    · intro h
      obtain ⟨rfl, -, rfl⟩ := (runs_pure () t).unique h
      exact .nil
    · rintro ⟨⟩
      exact runs_pure ..
  | cons a as ih =>
    rw [compileAll]
    constructor
    · intro h
      obtain ⟨_, t₁, _, _, hfirst, hrest, rfl⟩ :=
        h.of_bind (total_compile o a) fun _ ↦ total_compileAll o as
      obtain ⟨command, hcompiles, rfl⟩ := runs_compile_ok.mp hfirst
      exact .cons hcompiles (ih.mp hrest)
    · rintro (_ | ⟨hfirst, hrest⟩)
      exact (runs_compile_ok.mpr ⟨_, hfirst, rfl⟩).bind (ih.mpr hrest)

/-! ### Judging objects -/

/-- Objects are judged in a tree; the actions of those that are stale are picked out. -/
inductive Judges (g : Graph) (t : FileTree) (project : Path) :
    List Path → List CompileAction → Prop where
  | nil : Judges g t project [] []
  | stale {p : Path} {ps : List Path} {a : CompileAction} {as : List CompileAction} {v : Verdict}
      (action : g.compileActions.find? p = some a) (verdict : g.judge t project a.object = .ok v)
      (isStale : v.isStale = true) (rest : Judges g t project ps as) :
      Judges g t project (p :: ps) (a :: as)
  | fresh {p : Path} {ps : List Path} {a : CompileAction} {as : List CompileAction} {v : Verdict}
      (action : g.compileActions.find? p = some a) (verdict : g.judge t project a.object = .ok v)
      (isFresh : v.isStale = false) (rest : Judges g t project ps as) :
      Judges g t project (p :: ps) as

theorem runs_record (r? : Option Log.Record) (t : FileTree) :
    Runs (r?.forM say) t [] (.ok ⟨⟩) t := by
  cases r? with
  | none => exact runs_pure ..
  | some r => exact runs_say ..

theorem total_record (r? : Option Log.Record) : Total (r?.forM say) :=
  ⟨fun t ↦ ⟨_, _, _, runs_record r? t⟩⟩

theorem total_staleActions (g : Graph) (o : BuildOptions) (ps : List Path) :
    Total (g.staleActions o ps) := by
  induction ps with
  | nil => exact total_pure _
  | cons p ps ih =>
    rw [staleActions]
    split
    · exact total_throw _
    · exact (total_ask _).bind fun v ↦ (total_record _).bind fun _ ↦
        ih.bind fun _ ↦ total_pure _

theorem runs_staleActions_ok {ps : List Path} {as : List CompileAction} :
    Runs (g.staleActions o ps) t commands (.ok as) t' ↔
      Judges g t o.project ps as ∧ commands = [] ∧ t' = t := by
  induction ps generalizing t commands as with
  | nil =>
    constructor
    · intro h
      obtain ⟨rfl, has, rfl⟩ := (runs_pure [] t).unique h
      obtain rfl := Except.ok.inj has
      exact ⟨.nil, rfl, rfl⟩
    · rintro ⟨⟨⟩, rfl, rfl⟩
      exact runs_pure ..
  | cons p ps ih =>
    rw [staleActions]
    cases ha : g.compileActions.find? p with
    | none =>
      constructor
      · intro h
        exact absurd ((runs_throw _ t).unique h).2.1 (by simp)
      · rintro ⟨h, -, -⟩
        cases h with
        | stale action => simp [ha] at action
        | fresh action => simp [ha] at action
    | some a =>
      dsimp only
      constructor
      · intro h
        obtain ⟨v, t₁, _, _, hask, h₁, rfl⟩ := h.of_bind (total_ask _) fun v ↦
          (total_record _).bind fun _ ↦ (total_staleActions g o ps).bind fun _ ↦ total_pure _
        obtain ⟨rfl, hv, rfl⟩ := (runs_ask _ t).unique hask
        obtain ⟨_, t₂, _, _, hrecord, h₂, rfl⟩ := h₁.of_bind (total_record _) fun _ ↦
          (total_staleActions g o ps).bind fun _ ↦ total_pure _
        obtain ⟨rfl, -, rfl⟩ := (runs_record _ _).unique hrecord
        obtain ⟨as', t₃, _, _, hstale, hpure, rfl⟩ :=
          h₂.of_bind (total_staleActions g o ps) fun _ ↦ total_pure _
        obtain ⟨rfl, has, rfl⟩ := (runs_pure _ t₃).unique hpure
        obtain ⟨hjudges, rfl, rfl⟩ := ih.mp hstale
        obtain rfl := Except.ok.inj has
        refine ⟨?_, rfl, rfl⟩
        cases hs : v.isStale with
        | true => exact .stale ha hv.symm hs hjudges
        | false => exact .fresh ha hv.symm hs hjudges
      · rintro ⟨h, rfl, rfl⟩
        cases h with
        | stale action verdict isStale rest =>
          obtain rfl := Option.some.inj (ha.symm.trans action)
          have hask := runs_ask (fun t ↦ g.judge t o.project a.object) t'
          rw [verdict] at hask
          refine hask.silent_bind ((runs_record ..).silent_bind
            ((ih.mpr ⟨rest, rfl, rfl⟩).silent_bind ?_))
          rw [if_pos isStale]
          exact runs_pure ..
        | fresh action verdict isFresh rest =>
          obtain rfl := Option.some.inj (ha.symm.trans action)
          have hask := runs_ask (fun t ↦ g.judge t o.project a.object) t'
          rw [verdict] at hask
          refine hask.silent_bind ((runs_record ..).silent_bind
            ((ih.mpr ⟨rest, rfl, rfl⟩).silent_bind ?_))
          rw [if_neg (by simp [isFresh])]
          exact runs_pure ..

/-- Objects that have actions are judged, up to the first that cannot be. -/
theorem judges_or_error {ps : List Path} (h : ∀ p ∈ ps, ∃ a, g.compileActions.find? p = some a) :
    (∃ as, Judges g t o.project ps as) ∨ ∃ p ∈ ps, ∃ a f, g.compileActions.find? p = some a ∧
      g.judge t o.project a.object = .error f ∧ Runs (g.staleActions o ps) t [] (.error f) t := by
  induction ps with
  | nil => exact .inl ⟨[], .nil⟩
  | cons p ps ih =>
    obtain ⟨a, ha⟩ := h p List.mem_cons_self
    have hask := runs_ask (fun t ↦ g.judge t o.project a.object) t
    rw [staleActions, ha]
    dsimp only
    cases hv : g.judge t o.project a.object with
    | error f =>
      rw [hv] at hask
      exact .inr ⟨p, List.mem_cons_self, a, f, ha, hv, hask.bind_error⟩
    | ok v =>
      rw [hv] at hask
      rcases ih fun p' hp' ↦ h p' (List.mem_cons_of_mem _ hp') with ⟨as, hjudges⟩ | ⟨p', hp', a', f, ha', hf, hruns⟩
      · cases hs : v.isStale with
        | true => exact .inl ⟨_, .stale ha hv hs hjudges⟩
        | false => exact .inl ⟨_, .fresh ha hv hs hjudges⟩
      · refine .inr ⟨p', List.mem_cons_of_mem _ hp', a', f, ha', hf, ?_⟩
        exact hask.silent_bind ((runs_record ..).silent_bind hruns.bind_error)

/-! ### Making targets -/

/-- In a tree in which the target's directory is there, the target is made. -/
def Makes (o : BuildOptions) (a : TargetAction) (t t' : FileTree) (command : List String) : Prop :=
  ∃ r, a.command.words? = some command ∧ o.tools t o.project command = (t', r) ∧ r.IsSuccess

/-- A target is made by a command. -/
def Realizes (o : BuildOptions) (a : TargetAction) (t t' : FileTree) (command : List String) : Prop :=
  ∃ t₁, t.ensureDirectory (o.project / a.target).parent = (t₁, .ok ()) ∧ Makes o a t₁ t' command

/-- Targets are made one after another, or kept if they are not stale. -/
inductive RealizesAll (g : Graph) (o : BuildOptions) :
    BuildResult → List Path → FileTree → BuildResult → FileTree → List (List String) → Prop where
  | done {result : BuildResult} {t : FileTree} : RealizesAll g o result [] t result t []
  | made {result result' : BuildResult} {p : Path} {ps : List Path} {a : TargetAction}
      {t t₁ t' : FileTree} {command : List String} {commands : List (List String)}
      (action : g.targetActions.find? p = some a)
      (isStale : targetIsStale t o.project a (result.compiled ++ result.realized) = .ok true)
      (first : Realizes o a t t₁ command)
      (rest : RealizesAll g o { result with realized := result.realized ++ [p] } ps t₁ result' t'
        commands) :
      RealizesAll g o result (p :: ps) t result' t' (command :: commands)
  | kept {result result' : BuildResult} {p : Path} {ps : List Path} {a : TargetAction}
      {t t' : FileTree} {commands : List (List String)}
      (action : g.targetActions.find? p = some a)
      (isFresh : targetIsStale t o.project a (result.compiled ++ result.realized) = .ok false)
      (rest : RealizesAll g o { result with upToDate := result.upToDate ++ [p] } ps t result' t'
        commands) :
      RealizesAll g o result (p :: ps) t result' t' commands

/-- Targets are gone through part by part. -/
theorem RealizesAll.append {result result₁ result' : BuildResult} {ps qs : List Path} {t₁ : FileTree}
    {commands' : List (List String)} (h : RealizesAll g o result ps t result₁ t₁ commands)
    (h' : RealizesAll g o result₁ qs t₁ result' t' commands') :
    RealizesAll g o result (ps ++ qs) t result' t' (commands ++ commands') := by
  induction h with
  | done => exact h'
  | made action isStale first _ ih => exact .made action isStale first (ih h')
  | kept action isFresh _ ih => exact .kept action isFresh (ih h')

/-- What a target's step is called. -/
def stepOf (a : TargetAction) : BuildStep :=
  match a.kind with
  | .archive => .archive a.target
  | .executable => .link a.target

/-- Making a target is seeing to its directory and running its command, if nothing is said about it. -/
theorem runs_realize {a : TargetAction} {answer : Except Failure Unit} :
    Runs (do ensureParent (o.project / a.target); perform o (stepOf a) a.command) t commands answer
      t' → Runs (realize o a) t commands answer t' := by
  intro h
  rw [runs_bind (total_ensureParent _) fun _ ↦ total_perform ..] at h
  unfold realize
  rcases h with ⟨e, rfl, h⟩ | ⟨_, t₁, commands₁, commands₂, h₁, h₂, rfl⟩
  · exact h.bind_error
  · refine h₁.bind ?_
    unfold stepOf at h₂
    cases hk : a.kind with
    | archive =>
      simp only [hk] at h₂ ⊢
      split
      · exact Runs.silent_bind (runs_print ..) h₂
      · exact h₂
    | executable =>
      simp only [hk] at h₂ ⊢
      split
      · exact Runs.silent_bind (runs_print ..) h₂
      · exact h₂

theorem total_realize (o : BuildOptions) (a : TargetAction) : Total (realize o a) := by
  refine ⟨fun t ↦ ?_⟩
  obtain ⟨commands, answer, t', h⟩ := Total.runs
    ((total_ensureParent (o.project / a.target)).bind fun _ ↦ total_perform o (stepOf a) a.command) t
  exact ⟨commands, answer, t', runs_realize h⟩

theorem runs_realize_ok {a : TargetAction} :
    Runs (realize o a) t commands (.ok ()) t' ↔
      ∃ command, Realizes o a t t' command ∧ commands = [command] := by
  constructor
  · intro h
    obtain ⟨commands', answer, t'', h'⟩ := Total.runs
      ((total_ensureParent (o.project / a.target)).bind fun _ ↦
        total_perform o (stepOf a) a.command) t
    obtain ⟨rfl, rfl, rfl⟩ := (runs_realize h').unique h
    obtain ⟨_, t₁, _, _, h₁, h₂, rfl⟩ := h'.of_bind (total_ensureParent _) fun _ ↦ total_perform ..
    obtain ⟨hparent, rfl⟩ := runs_ensureParent_ok.mp h₁
    obtain ⟨command, r, hw, htools, hr, rfl⟩ := runs_perform_ok.mp h₂
    exact ⟨command, ⟨t₁, hparent, r, hw, htools, hr⟩, rfl⟩
  · rintro ⟨command, ⟨t₁, hparent, r, hw, htools, hr⟩, rfl⟩
    exact runs_realize ((runs_ensureParent_ok.mpr ⟨hparent, rfl⟩).silent_bind
      (runs_perform_ok.mpr ⟨command, r, hw, htools, hr, rfl⟩))

theorem total_realizeAll (g : Graph) (o : BuildOptions) (result : BuildResult) (ps : List Path) :
    Total (g.realizeAll o result ps) := by
  induction ps generalizing result with
  | nil => exact total_pure _
  | cons p ps ih =>
    rw [realizeAll]
    split
    · exact total_throw _
    · refine (total_ask _).bind fun b ↦ ?_
      split
      · exact (total_realize ..).bind fun _ ↦ ih _
      · exact ih _

/-- What is done with a target once it is known whether it is stale. -/
theorem total_realizeAll_next (g : Graph) (o : BuildOptions) (result : BuildResult) (p : Path)
    (ps : List Path) (a : TargetAction) (isStale : Bool) :
    Total (if isStale then do
      realize o a
      g.realizeAll o { result with realized := result.realized ++ [p] } ps
    else g.realizeAll o { result with upToDate := result.upToDate ++ [p] } ps) := by
  split
  · exact (total_realize o a).bind fun _ ↦ total_realizeAll ..
  · exact total_realizeAll ..

theorem runs_realizeAll_ok {result result' : BuildResult} {ps : List Path} :
    Runs (g.realizeAll o result ps) t commands (.ok result') t' ↔
      RealizesAll g o result ps t result' t' commands := by
  induction ps generalizing result t commands with
  | nil =>
    constructor
    · intro h
      obtain ⟨rfl, hresult, rfl⟩ := (runs_pure result t).unique h
      obtain rfl := Except.ok.inj hresult
      exact .done
    · rintro ⟨⟩
      exact runs_pure ..
  | cons p ps ih =>
    rw [realizeAll]
    cases ha : g.targetActions.find? p with
    | none =>
      constructor
      · intro h
        exact absurd ((runs_throw _ t).unique h).2.1 (by simp)
      · intro h
        cases h with
        | made action => simp [ha] at action
        | kept action => simp [ha] at action
    | some a =>
      dsimp only
      constructor
      · intro h
        obtain ⟨b, t₁, _, _, hask, h₁, rfl⟩ :=
          h.of_bind (total_ask _) (total_realizeAll_next g o result p ps a)
        obtain ⟨rfl, hb, rfl⟩ := (runs_ask _ t).unique hask
        cases b with
        | false => exact .kept ha hb.symm (ih.mp h₁)
        | true =>
          obtain ⟨_, t₂, _, _, hrealize, hrest, rfl⟩ :=
            Runs.of_bind h₁ (total_realize o a) fun _ ↦ total_realizeAll ..
          obtain ⟨command, hrealizes, rfl⟩ := runs_realize_ok.mp hrealize
          exact .made ha hb.symm hrealizes (ih.mp hrest)
      · intro h
        cases h with
        | made action isStale first rest =>
          obtain rfl := Option.some.inj (ha.symm.trans action)
          have hask := runs_ask
            (fun t ↦ targetIsStale t o.project a (result.compiled ++ result.realized)) t
          rw [isStale] at hask
          exact hask.silent_bind
            ((runs_realize_ok.mpr ⟨_, first, rfl⟩).bind (ih.mpr rest))
        | kept action isFresh rest =>
          obtain rfl := Option.some.inj (ha.symm.trans action)
          have hask := runs_ask
            (fun t ↦ targetIsStale t o.project a (result.compiled ++ result.realized)) t
          rw [isFresh] at hask
          exact hask.silent_bind (ih.mpr rest)

/-! ### Builds -/

theorem total_compileStale (o : BuildOptions) (as : List CompileAction) :
    Total (compileStale o as) := by
  unfold compileStale
  split
  · exact total_throw _
  · exact total_compileAll o as

theorem runs_compileStale_ok {as : List CompileAction} :
    Runs (compileStale o as) t commands (.ok ()) t' ↔
      (as = [] ∨ 0 < o.jobs) ∧ CompilesAll o as t t' commands := by
  unfold compileStale
  split
  · next h =>
    simp only [Bool.and_eq_true, Bool.not_eq_true', List.isEmpty_eq_false_iff,
      decide_eq_true_eq] at h
    constructor
    · intro hruns
      exact absurd ((runs_throw _ t).unique hruns).2.1 (by simp)
    · rintro ⟨has | hjobs, -⟩
      · exact absurd has h.1
      · omega
  · next h =>
    simp only [Bool.and_eq_true, Bool.not_eq_true', List.isEmpty_eq_false_iff,
      decide_eq_true_eq, not_and, Int.not_le] at h
    rw [runs_compileAll_ok]
    constructor
    · intro hcompiles
      by_cases has : as = []
      · exact ⟨.inl has, hcompiles⟩
      · exact ⟨.inr (h has), hcompiles⟩
    · exact And.right

/-- A build: targets are ordered, the objects they need judged, stale objects compiled, and targets made
or kept. -/
structure Builds (g : Graph) (o : BuildOptions) (goals : List Path) (t : FileTree)
    (result : BuildResult) (t' : FileTree) (commands : List (List String)) (order : List Path)
    (stale : List CompileAction) (compiled : FileTree) (compiles realizes : List (List String)) :
    Prop where
  targetOrder : g.targetOrder goals = .ok order
  judges : Judges g t o.project (g.objectsOf order) stale
  jobs : stale = [] ∨ 0 < o.jobs
  compilesAll : CompilesAll o stale t compiled compiles
  realizesAll : RealizesAll g o { compiled := stale.map (·.object.path) } order compiled result t'
    realizes
  commands_eq : commands = compiles ++ realizes

theorem total_build (g : Graph) (o : BuildOptions) (goals? : Option (List Path)) :
    Total (g.build o goals?) :=
  (total_ofExcept _).bind fun _ ↦ (total_staleActions ..).bind fun _ ↦
    (total_compileStale ..).bind fun _ ↦ (total_realizeAll ..).bind fun _ ↦
      (total_say _).bind fun _ ↦ total_pure _

/-- A build succeeds if all of its steps do. -/
theorem runs_build_ok {goals? : Option (List Path)} {result : BuildResult} :
    Runs (g.build o goals?) t commands (.ok result) t' ↔
      ∃ order stale compiled compiles realizes,
        Builds g o (goals?.getD g.defaultGoals) t result t' commands order stale compiled compiles
          realizes := by
  unfold build
  constructor
  · intro h
    obtain ⟨order, t₁, _, _, horder, h₁, rfl⟩ := h.of_bind (total_ofExcept _) fun _ ↦
      (total_staleActions ..).bind fun _ ↦ (total_compileStale ..).bind fun _ ↦
        (total_realizeAll ..).bind fun _ ↦ (total_say _).bind fun _ ↦ total_pure _
    obtain ⟨rfl, ho, rfl⟩ := (runs_ofExcept _ t).unique horder
    obtain ⟨stale, t₂, _, _, hstale, h₂, rfl⟩ := h₁.of_bind (total_staleActions ..) fun _ ↦
      (total_compileStale ..).bind fun _ ↦ (total_realizeAll ..).bind fun _ ↦
        (total_say _).bind fun _ ↦ total_pure _
    obtain ⟨hjudges, rfl, rfl⟩ := runs_staleActions_ok.mp hstale
    obtain ⟨_, t₃, compiles, _, hcompile, h₃, rfl⟩ := h₂.of_bind (total_compileStale ..) fun _ ↦
      (total_realizeAll ..).bind fun _ ↦ (total_say _).bind fun _ ↦ total_pure _
    obtain ⟨hjobs, hcompiles⟩ := runs_compileStale_ok.mp hcompile
    obtain ⟨result', t₄, realizes, _, hrealize, h₄, rfl⟩ := h₃.of_bind (total_realizeAll ..) fun _ ↦
      (total_say _).bind fun _ ↦ total_pure _
    obtain ⟨rfl, hresult, rfl⟩ := (Runs.silent_bind (runs_say _ t₄) (runs_pure result' t₄)).unique h₄
    obtain rfl := Except.ok.inj hresult
    exact ⟨order, stale, t₃, compiles, realizes, mapError_eq_ok.mp ho.symm, hjudges, hjobs, hcompiles,
      runs_realizeAll_ok.mp hrealize, by simp⟩
  · rintro ⟨order, stale, compiled, compiles, realizes, h⟩
    rw [mapError_eq_ok.mpr h.targetOrder, h.commands_eq]
    have horder := runs_ofExcept (.ok order) t
    refine Runs.silent_bind horder ?_
    refine Runs.silent_bind (runs_staleActions_ok.mpr ⟨h.judges, rfl, rfl⟩) ?_
    refine Runs.bind (runs_compileStale_ok.mpr ⟨h.jobs, h.compilesAll⟩) ?_
    refine Runs.bind_silent (runs_realizeAll_ok.mpr h.realizesAll) ?_
    exact Runs.silent_bind (runs_say _ t') (runs_pure result t')

/-- A build that has succeeded, step by step. -/
theorem exists_builds {goals? : Option (List Path)} {run run' : Run} {result : BuildResult}
    (h : (g.build o goals?).run.run run = (.ok result, run')) :
    ∃ commands order stale compiled compiles realizes,
      Builds g o (goals?.getD g.defaultGoals) run.tree result run'.tree commands order stale compiled
        compiles realizes ∧ run'.commands = run.commands ++ commands := by
  obtain ⟨commands, hruns, hcommands⟩ := (total_build g o goals?).of_run h
  obtain ⟨order, stale, compiled, compiles, realizes, hbuilds⟩ := runs_build_ok.mp hruns
  exact ⟨commands, order, stale, compiled, compiles, realizes, hbuilds, hcommands⟩

end Graph

end ModuleBuild
