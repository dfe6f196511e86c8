import ModuleBuild.Proofs.Build.Contract

/-!
# Builds that are broken off

What a build with tools that may fail comes to, told by the build that succeeds with tools that do not: it
does the same, or stops at a command that fails, and then leaves the tree in which the command was started
(`stops_of_error`). What is left to do in that tree is what the other build did from there on
(`StopsAtCompile`, `StopsAtTarget`).
-/

namespace ModuleBuild

/-- What has not succeeded ends the step. -/
theorem Response.answer_eq_error {step : BuildStep} {command : List String} {r : Response}
    (h : ¬r.IsSuccess) : ∃ f, r.answer step command = .error f := by
  cases ha : r.answer step command with
  | error f => exact ⟨f, rfl⟩
  | ok _ => exact absurd (answer_eq_ok.mp ha) h

open RunM

variable {g : Graph} {o : BuildOptions} {faulty : Toolchain} {t t' : FileTree}

/-- A step that succeeds may fail instead, and then changes nothing. -/
theorem RunM.runs_perform_or_fails (hfaulty : faulty.MayFail o.tools) {step : BuildStep} {i : Invocation}
    {command : List String} {r : Response} (hw : i.words? = some command)
    (htool : o.tools t o.project command = (t', r)) (hr : r.IsSuccess) :
    Runs (perform { o with tools := faulty } step i) t [command] (.ok ()) t' ∨
      ∃ f, Runs (perform { o with tools := faulty } step i) t [command] (.error f) t := by
  have hruns : Runs (perform { o with tools := faulty } step i) t [command]
      ((faulty t o.project command).2.answer step command) (faulty t o.project command).1 :=
    runs_perform hw t
  rcases hfaulty t o.project command with heq | ⟨htree, hfails⟩
  · left
    rw [heq, htool] at hruns
    exact Response.answer_eq_ok.mpr hr ▸ hruns
  · right
    obtain ⟨f, hf⟩ : ∃ f, (faulty t o.project command).2.answer step command = .error f :=
      Response.answer_eq_error hfails
    rw [htree, hf] at hruns
    exact ⟨f, hruns⟩

namespace Graph

/-! ### Compiling -/

theorem runs_compile_or_fails (hfaulty : faulty.MayFail o.tools) {a : CompileAction}
    {command : List String} (h : Compiles o a t t' command) :
    Runs (compile { o with tools := faulty } a) t [command] (.ok ()) t' ∨
      ∃ f stopped, Runs (compile { o with tools := faulty } a) t [command] (.error f) stopped ∧
        t.ensureDirectory (o.project / a.object.path).parent = (stopped, .ok ()) ∧
        Finishes o a stopped t' command := by
  obtain ⟨t₁, hparent, t₂, r, d?, hw, htool, hr, hfinalize⟩ := h
  have hensure : Runs (ensureParent (o.project / a.object.path)) t [] (.ok ()) t₁ :=
    runs_ensureParent_ok.mpr ⟨hparent, rfl⟩
  rcases runs_perform_or_fails hfaulty hw htool hr with hperform | ⟨f, hperform⟩
  · left
    obtain ⟨command', r', hw', htool', hr', hcommands⟩ := runs_perform_ok.mp hperform
    obtain rfl := List.singleton_inj.mp hcommands
    exact runs_compile_ok.mpr ⟨command, ⟨t₁, hparent, t₂, r', d?, hw', htool', hr', hfinalize⟩, rfl⟩
  · right
    refine ⟨f, t₁, ?_, hparent, t₂, r, d?, hw, htool, hr, hfinalize⟩
    unfold compile
    exact hensure.silent_bind hperform.bind_error

/-- Compiles are stopped: some are done, the directory of the next object is there, and its compiler has
failed. With tools that do not fail the rest goes on from the tree that is left. -/
structure StopsAtCompile (o : BuildOptions) (as₁ : List CompileAction) (a : CompileAction)
    (as₂ : List CompileAction) (t stopped t' : FileTree) (commands₁ : List (List String))
    (command : List String) (commands₂ : List (List String)) : Prop where
  done : ∃ t₁, CompilesAll o as₁ t t₁ commands₁ ∧
    t₁.ensureDirectory (o.project / a.object.path).parent = (stopped, .ok ())
  rest : ∃ t₂, Finishes o a stopped t₂ command ∧ CompilesAll o as₂ t₂ t' commands₂

theorem runs_compileAll_or_stops (hfaulty : faulty.MayFail o.tools) {as : List CompileAction}
    {commands : List (List String)} (h : CompilesAll o as t t' commands) :
    Runs (compileAll { o with tools := faulty } as) t commands (.ok ()) t' ∨
      ∃ f stopped as₁ a as₂ commands₁ command commands₂, as = as₁ ++ a :: as₂ ∧
        commands = commands₁ ++ command :: commands₂ ∧
        StopsAtCompile o as₁ a as₂ t stopped t' commands₁ command commands₂ ∧
        Runs (compileAll { o with tools := faulty } as) t (commands₁ ++ [command]) (.error f)
          stopped := by
  induction h with
  | nil => exact .inl (runs_pure ..)
  | cons first rest ih =>
    next a as t t₁ t' command commands =>
    rcases runs_compile_or_fails hfaulty first with hcompile | ⟨f, stopped, hcompile, hparent, hfinishes⟩
    · rcases ih with hrest | ⟨f, stopped, as₁, a', as₂, commands₁, command', commands₂, rfl, rfl,
        ⟨⟨t₂, hdone, hparent⟩, hlater⟩, hruns⟩
      · exact .inl (hcompile.bind hrest)
      · exact .inr ⟨f, stopped, a :: as₁, a', as₂, command :: commands₁, command', commands₂, rfl, rfl,
          ⟨⟨t₂, .cons first hdone, hparent⟩, hlater⟩, hcompile.bind hruns⟩
    · exact .inr ⟨f, stopped, [], a, as, [], command, commands, rfl, rfl,
        ⟨⟨t, .nil, hparent⟩, t₁, hfinishes, rest⟩, hcompile.bind_error⟩

/-! ### Making targets -/

theorem runs_realize_or_fails (hfaulty : faulty.MayFail o.tools) {a : TargetAction}
    {command : List String} (h : Realizes o a t t' command) :
    Runs (realize { o with tools := faulty } a) t [command] (.ok ()) t' ∨
      ∃ f stopped, Runs (realize { o with tools := faulty } a) t [command] (.error f) stopped ∧
        t.ensureDirectory (o.project / a.target).parent = (stopped, .ok ()) ∧
        Makes o a stopped t' command := by
  obtain ⟨t₁, hparent, r, hw, htool, hr⟩ := h
  have hensure : Runs (ensureParent (o.project / a.target)) t [] (.ok ()) t₁ :=
    runs_ensureParent_ok.mpr ⟨hparent, rfl⟩
  rcases runs_perform_or_fails hfaulty hw htool hr with hperform | ⟨f, hperform⟩
  · exact .inl (runs_realize (hensure.silent_bind hperform))
  · exact .inr ⟨f, t₁, runs_realize (hensure.silent_bind hperform), hparent, r, hw, htool, hr⟩

/-- Making targets is stopped: some have been gone through, the next is stale and its directory there, and
its command has failed. With tools that do not fail the rest goes on from the tree that is left. -/
structure StopsAtTarget (g : Graph) (o : BuildOptions) (result : BuildResult) (ps₁ : List Path) (p : Path)
    (ps₂ : List Path) (t stopped : FileTree) (result' : BuildResult) (t' : FileTree)
    (commands₁ : List (List String)) (command : List String) (commands₂ : List (List String))
    (result₁ : BuildResult) (a : TargetAction) : Prop where
  action : g.targetActions.find? p = some a
  done : ∃ t₁, RealizesAll g o result ps₁ t result₁ t₁ commands₁ ∧
    targetIsStale t₁ o.project a (result₁.compiled ++ result₁.realized) = .ok true ∧
    t₁.ensureDirectory (o.project / a.target).parent = (stopped, .ok ())
  rest : ∃ t₂, Makes o a stopped t₂ command ∧
    RealizesAll g o { result₁ with realized := result₁.realized ++ [p] } ps₂ t₂ result' t' commands₂

theorem runs_realizeAll_or_stops (hfaulty : faulty.MayFail o.tools) {result result' : BuildResult}
    {ps : List Path} {commands : List (List String)}
    (h : RealizesAll g o result ps t result' t' commands) :
    Runs (g.realizeAll { o with tools := faulty } result ps) t commands (.ok result') t' ∨
      ∃ f stopped ps₁ p ps₂ commands₁ command commands₂ result₁ a, ps = ps₁ ++ p :: ps₂ ∧
        commands = commands₁ ++ command :: commands₂ ∧
        StopsAtTarget g o result ps₁ p ps₂ t stopped result' t' commands₁ command commands₂ result₁ a ∧
        Runs (g.realizeAll { o with tools := faulty } result ps) t (commands₁ ++ [command]) (.error f)
          stopped := by
  induction h with
  | done => exact .inl (runs_pure ..)
  | made action isStale first rest ih =>
    next result result' p ps a t t₁ t' command commands =>
    have hask := runs_ask (fun t ↦ targetIsStale t o.project a (result.compiled ++ result.realized)) t
    rw [isStale] at hask
    rw [realizeAll, action]
    rcases runs_realize_or_fails hfaulty first with hrealize | ⟨f, stopped, hrealize, hparent, hmakes⟩
    · rcases ih with hrest | ⟨f, stopped, ps₁, p', ps₂, commands₁, command', commands₂, result₁, a', rfl,
        rfl, ⟨haction, ⟨t₂, hdone, hstale, hparent⟩, hlater⟩, hruns⟩
      · exact .inl (hask.silent_bind (hrealize.bind hrest))
      · exact .inr ⟨f, stopped, p :: ps₁, p', ps₂, command :: commands₁, command', commands₂, result₁, a',
          rfl, rfl, ⟨haction, ⟨t₂, .made action isStale first hdone, hstale, hparent⟩, hlater⟩,
          hask.silent_bind (hrealize.bind hruns)⟩
    · exact .inr ⟨f, stopped, [], p, ps, [], command, commands, result, a, rfl, rfl,
        ⟨action, ⟨t, .done, isStale, hparent⟩, t₁, hmakes, rest⟩,
        hask.silent_bind hrealize.bind_error⟩
  | kept action isFresh rest ih =>
    next result result' p ps a t t' commands =>
    have hask := runs_ask (fun t ↦ targetIsStale t o.project a (result.compiled ++ result.realized)) t
    rw [isFresh] at hask
    rw [realizeAll, action]
    rcases ih with hrest | ⟨f, stopped, ps₁, p', ps₂, commands₁, command', commands₂, result₁, a', rfl,
      rfl, ⟨haction, ⟨t₂, hdone, hstale, hparent⟩, hlater⟩, hruns⟩
    · exact .inl (hask.silent_bind hrest)
    · exact .inr ⟨f, stopped, p :: ps₁, p', ps₂, commands₁, command', commands₂, result₁, a', rfl, rfl,
        ⟨haction, ⟨t₂, .kept action isFresh hdone, hstale, hparent⟩, hlater⟩, hask.silent_bind hruns⟩

/-! ### Builds -/

/-- A build that would succeed and is broken off has stopped at a compile or at a target. -/
theorem stops_of_error (hfaulty : faulty.MayFail o.tools) {goals? : Option (List Path)}
    {result : BuildResult} {commands : List (List String)} {order : List Path}
    {as : List CompileAction} {compiled : FileTree} {compiles realizes : List (List String)}
    (h : Builds g o (goals?.getD g.defaultGoals) t result t' commands order as compiled compiles realizes)
    {tried : List (List String)} {f : Failure} {stopped : FileTree}
    (hruns : Runs (g.build { o with tools := faulty } goals?) t tried (.error f) stopped) :
    (∃ as₁ a as₂ commands₁ command commands₂, as = as₁ ++ a :: as₂ ∧
      compiles = commands₁ ++ command :: commands₂ ∧ tried = commands₁ ++ [command] ∧
      StopsAtCompile o as₁ a as₂ t stopped compiled commands₁ command commands₂) ∨
    ∃ ps₁ p ps₂ commands₁ command commands₂ result₁ a, order = ps₁ ++ p :: ps₂ ∧
      realizes = commands₁ ++ command :: commands₂ ∧ tried = compiles ++ commands₁ ++ [command] ∧
      StopsAtTarget g o { compiled := as.map (·.object.path) } ps₁ p ps₂ compiled stopped result t'
        commands₁ command commands₂ result₁ a := by
  have horder : Runs (RunM.ofExcept ((g.targetOrder (goals?.getD g.defaultGoals)).mapError .build)) t []
      (.ok order) t := by
    rw [mapError_eq_ok.mpr h.targetOrder]
    exact runs_ofExcept ..
  have hstale : Runs (g.staleActions { o with tools := faulty } (g.objectsOf order)) t [] (.ok as) t :=
    runs_staleActions_ok.mpr ⟨h.judges, rfl, rfl⟩
  have hjobs : compileStale { o with tools := faulty } as = compileAll { o with tools := faulty } as := by
    unfold compileStale
    rw [if_neg]
    rcases h.jobs with rfl | hpos
    · simp
    · have hpos : ¬o.jobs ≤ 0 := by omega
      simp [hpos]
  have hbegin {commands : List (List String)} {answer : Except Failure BuildResult} {t' : FileTree}
      (hrest : Runs (do
        compileAll { o with tools := faulty } as
        let result ← g.realizeAll { o with tools := faulty } { compiled := as.map (·.object.path) } order
        say (buildRecord result)
        return result) t commands answer t') :
      Runs (g.build { o with tools := faulty } goals?) t commands answer t' := by
    unfold build
    refine Runs.silent_bind horder ?_
    refine Runs.silent_bind hstale ?_
    rw [hjobs]
    exact hrest
  rcases runs_compileAll_or_stops hfaulty h.compilesAll with hcompile |
    ⟨f', stopped', as₁, a, as₂, commands₁, command, commands₂, has, hcommands, hstops, hcompile⟩
  · rcases runs_realizeAll_or_stops hfaulty h.realizesAll with hrealize |
      ⟨f', stopped', ps₁, p, ps₂, commands₁, command, commands₂, result₁, a, hps, hcommands, hstops,
        hrealize⟩
    · have hbuild := hbegin (hcompile.bind (hrealize.bind_silent
        ((runs_say (buildRecord result) t').silent_bind (runs_pure result t'))))
      exact absurd (hbuild.unique hruns).2.1 (by simp)
    · have hbuild := hbegin (hcompile.bind hrealize.bind_error)
      obtain ⟨rfl, -, rfl⟩ := hbuild.unique hruns
      exact .inr ⟨ps₁, p, ps₂, commands₁, command, commands₂, result₁, a, hps, hcommands,
        (List.append_assoc ..).symm, hstops⟩
  · have hbuild := hbegin hcompile.bind_error
    obtain ⟨rfl, -, rfl⟩ := hbuild.unique hruns
    exact .inl ⟨as₁, a, as₂, commands₁, command, commands₂, has, hcommands, rfl, hstops⟩

end Graph

end ModuleBuild
