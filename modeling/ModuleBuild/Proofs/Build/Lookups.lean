import ModuleBuild.Proofs.Build.Failing
import ModuleBuild.Proofs.Build.Layout
import ModuleBuild.Proofs.Build.Ordering
import ModuleBuild.Proofs.Graph.Closure
import ModuleBuild.Proofs.Graph.Faultless

/-!
# Builds find their keys

What a part of a run may fail with is what its parts may (`FailsAs`). In a closed graph every key that a build looks up is
there, so that neither building nor cleaning fails for a missing one (`Graph.Closed.findsKeys`). The graph of a project is
closed as soon as its modules can be walked (`Project.synthesized_findsKeys`).
-/

namespace ModuleBuild

namespace RunM

variable {α β : Type} {P : Failure → Prop} {x : RunM α} {f : α → RunM β}

/-- A part of a run fails only as is said, whatever was done before. -/
structure FailsAs (P : Failure → Prop) (x : RunM α) : Prop where
  of_run : ∀ run e run', x.run.run run = (.error e, run') → P e

theorem Runs.failsAs {answer : FileTree → Except Failure α}
    (h : ∀ t, ∃ commands t', Runs x t commands (answer t) t') (hP : ∀ t, FailsOnly P (answer t)) : FailsAs P x := by
  constructor
  intro run e run' hrun
  obtain ⟨commands, t', hruns⟩ := h run.tree
  obtain ⟨he, -, -⟩ := hruns.of_run hrun
  exact (hP run.tree).of_error e he.symm

namespace FailsAs

theorem pure (a : α) : FailsAs P (Pure.pure a : RunM α) :=
  Runs.failsAs (fun t ↦ ⟨_, _, runs_pure a t⟩) fun _ ↦ .ok a

theorem throw {e : Failure} (h : P e) : FailsAs P (MonadExcept.throw e : RunM α) :=
  Runs.failsAs (fun t ↦ ⟨_, _, runs_throw e t⟩) fun _ ↦ .error h

theorem say (r : Log.Record) : FailsAs P (RunM.say r) :=
  Runs.failsAs (fun t ↦ ⟨_, _, runs_say r t⟩) fun _ ↦ .ok ()

theorem print (line : String) : FailsAs P (RunM.print line) :=
  Runs.failsAs (fun t ↦ ⟨_, _, runs_print line t⟩) fun _ ↦ .ok ()

theorem ofExcept {answer : Except Failure α} (h : FailsOnly P answer) : FailsAs P (RunM.ofExcept answer) :=
  Runs.failsAs (fun t ↦ ⟨_, _, runs_ofExcept answer t⟩) fun _ ↦ h

theorem ask {f : FileTree → Except Failure α} (h : ∀ t, FailsOnly P (f t)) : FailsAs P (RunM.ask f) :=
  Runs.failsAs (fun t ↦ ⟨_, _, runs_ask f t⟩) h

theorem change {f : FileTree → FileTree × Except Failure α} (h : ∀ t, FailsOnly P (f t).2) : FailsAs P (RunM.change f) :=
  Runs.failsAs (fun t ↦ ⟨_, _, runs_change f t⟩) h

theorem ite {c : Prop} [Decidable c] {y : RunM α} (hx : c → FailsAs P x) (hy : ¬c → FailsAs P y) :
    FailsAs P (if c then x else y) := by
  split
  · next h => exact hx h
  · next h => exact hy h

/-- Two parts fail as one of them does. -/
theorem bind (hx : FailsAs P x) (hf : ∀ a, FailsAs P (f a)) : FailsAs P (x >>= f) := by
  constructor
  intro run e run' hrun
  rw [run_bind] at hrun
  split at hrun
  · next a run₁ _ => exact (hf a).of_run run₁ e run' hrun
  · next e' run₁ hx' =>
    obtain ⟨he, -⟩ := Prod.mk.inj hrun
    exact hx.of_run run e run₁ (Except.error.inj he ▸ hx')

/-- A part that goes on from an answer fails as the answer, or as what goes on. -/
theorem ofExcept_bind {answer : Except Failure α} (h : FailsOnly P answer)
    (hf : ∀ a, answer = .ok a → FailsAs P (f a)) : FailsAs P (RunM.ofExcept answer >>= f) := by
  cases answer with
  | error e => exact .throw (h.of_error e rfl)
  | ok a => exact hf a rfl

end FailsAs

end RunM

open RunM

/-! ### Failures other than of a missing key -/

/-- Something has failed, but no key was missing. -/
def Failure.FindsKeys (f : Failure) : Prop := f.kind ≠ "KeyError"

theorem FileError.kind_ne (e : FileError) : e.kind ≠ "KeyError" := by
  unfold kind
  split
  all_goals decide

/-- Keys are missing where a target is not declared, or a suffix has no rule. -/
@[simp] theorem Failure.findsKeys_iff {f : Failure} :
    f.FindsKeys ↔ (∀ p, f ≠ .registry (.undeclared p)) ∧ ∀ suffix, f ≠ .noCompileRule suffix := by
  unfold FindsKeys
  cases f with
  | file e => simpa [kind] using e.kind_ne
  | registry e => cases e <;> simp [kind]
  | _ => simp [kind]

theorem Response.findsKeys_answer (step : BuildStep) (command : List String) (r : Response) :
    FailsOnly Failure.FindsKeys (r.answer step command) := by
  cases r with
  | cannotStart reason => exact .error (by simp)
  | interrupted => exact .error (by simp)
  | exited status stdout stderr =>
    rw [answer]
    split
    · exact .ok ()
    · exact .error (by simp)

theorem RunM.findsKeys_perform (o : BuildOptions) (step : BuildStep) (i : Invocation) :
    FailsAs Failure.FindsKeys (perform o step i) := by
  cases hwords : i.words? with
  | none =>
    have hkind : Failure.notOneProgram.FindsKeys := by simp
    exact Runs.failsAs (fun t ↦ ⟨_, _, runs_perform_of_none hwords t⟩) fun _ ↦ .error hkind
  | some command =>
    exact Runs.failsAs (fun t ↦ ⟨_, _, runs_perform hwords t⟩) fun _ ↦ Response.findsKeys_answer ..

theorem RunM.findsKeys_ensureParent (p : Path) : FailsAs Failure.FindsKeys (ensureParent p) :=
  .change fun _ ↦ .mapError _ (by simp)

namespace Graph

variable {g : Graph} {o : BuildOptions}

/-! ### The parts of a build -/

theorem findsKeys_compile (o : BuildOptions) (a : CompileAction) : FailsAs Failure.FindsKeys (compile o a) := by
  refine .bind (findsKeys_ensureParent _) fun _ ↦ .bind (findsKeys_perform ..) fun _ ↦
    .bind (.change fun t ↦ ?_) fun d? ↦ ?_
  · exact Listing.failsOnly_finalize (by simp) (by simp)
      (by simp) ..
  · cases d? with
    | none => exact .say _
    | some d => exact .pure _

theorem findsKeys_compileAll (o : BuildOptions) (as : List CompileAction) :
    FailsAs Failure.FindsKeys (compileAll o as) := by
  induction as with
  | nil => exact .pure _
  | cons a as ih => exact .bind (findsKeys_compile o a) fun _ ↦ ih

theorem findsKeys_compileStale (o : BuildOptions) (as : List CompileAction) :
    FailsAs Failure.FindsKeys (compileStale o as) := by
  refine .ite (fun _ ↦ .throw ?_) fun _ ↦ findsKeys_compileAll o as
  simp

theorem findsKeys_realize (o : BuildOptions) (a : TargetAction) : FailsAs Failure.FindsKeys (realize o a) := by
  refine .bind (findsKeys_ensureParent _) fun _ ↦ ?_
  dsimp only
  split
  · exact .bind (.print _) fun _ ↦ findsKeys_perform ..
  · exact findsKeys_perform ..

/-- Objects that have actions are judged without a missing key. -/
theorem findsKeys_staleActions {ps : List Path} (h : ∀ p ∈ ps, g.compileActions.contains p) :
    FailsAs Failure.FindsKeys (g.staleActions o ps) := by
  induction ps with
  | nil => exact .pure _
  | cons p ps ih =>
    have hrest := ih fun q hq ↦ h q (List.mem_cons_of_mem _ hq)
    obtain ⟨a, ha⟩ := Option.isSome_iff_exists.mp (h p List.mem_cons_self)
    rw [staleActions, ha]
    refine .bind (.ask fun t ↦ ?_) fun v ↦ .bind ?_ fun _ ↦ .bind hrest fun as ↦ .pure _
    · exact failsOnly_judge (by simp) (by simp) ..
    · cases v with
      | vanished header => exact .say _
      | fresh => exact .pure _
      | stale => exact .pure _

/-- Targets that have actions are made without a missing key. -/
theorem findsKeys_realizeAll {ps : List Path} (h : ∀ p ∈ ps, g.targetActions.contains p) (result : BuildResult) :
    FailsAs Failure.FindsKeys (g.realizeAll o result ps) := by
  induction ps generalizing result with
  | nil => exact .pure _
  | cons p ps ih =>
    have hrest := ih fun q hq ↦ h q (List.mem_cons_of_mem _ hq)
    obtain ⟨a, ha⟩ := Option.isSome_iff_exists.mp (h p List.mem_cons_self)
    rw [realizeAll, ha]
    refine .bind (.ask fun t ↦ ?_) fun stale ↦ .ite (fun _ ↦ .bind (findsKeys_realize o a) fun _ ↦ hrest _) fun _ ↦
      hrest _
    exact failsOnly_targetIsStale (by simp) (by simp) ..

theorem findsKeys_removeAll (removed ps : List Path) : FailsAs Failure.FindsKeys (removeAll o removed ps) := by
  induction ps generalizing removed with
  | nil => exact .pure _
  | cons p ps ih =>
    refine .bind (.ask fun t ↦ .mapError _ (by simp)) fun b ↦
      .ite (fun _ ↦ .bind (.change fun t ↦ ?_) fun _ ↦ ?_) fun _ ↦ ih removed
    · split
      · exact .ok ()
      · exact .error (by simp)
    · exact .ite (fun _ ↦ .bind (.print _) fun _ ↦ ih _) fun _ ↦ ih _

/-! ### Closed graphs -/

/-- Neither building nor cleaning looks up a key that is missing. -/
structure FindsKeys (g : Graph) : Prop where
  /-- The targets that goals need have actions, and so do their objects. -/
  order : ∀ goals order, g.targetOrder goals = .ok order →
    (∀ p ∈ order, p ∈ g.targets.keys ∧ p ∈ g.targetActions.keys) ∧
      ∀ p ∈ g.objectsOf order, p ∈ g.objects.keys ∧ p ∈ g.compileActions.keys
  build : ∀ (o : BuildOptions) (goals? : Option (List Path)) (run run' : Run) (e : Failure),
    (g.build o goals?).run.run run = (.error e, run') → e.FindsKeys
  clean : ∀ (o : BuildOptions) (run run' : Run) (e : Failure),
    (g.clean o).run.run run = (.error e, run') → e.FindsKeys

theorem Closed.findsKeys (hg : g.Closed) : g.FindsKeys := by
  have horder {goals order : List Path} (h : g.targetOrder goals = .ok order) :
      (∀ p ∈ order, p ∈ g.targets.keys ∧ p ∈ g.targetActions.keys) ∧
        ∀ p ∈ g.objectsOf order, p ∈ g.objects.keys ∧ p ∈ g.compileActions.keys := by
    rw [hg.targetActions_keys, hg.compileActions_keys]
    have htargets (p : Path) (hp : p ∈ order) : p ∈ g.targets.keys :=
      (Table.contains_iff_mem_keys ..).mp ((readyOrder_of_targetOrder h).isTarget p hp)
    refine ⟨fun p hp ↦ ⟨htargets p hp, htargets p hp⟩, fun q hq ↦ ?_⟩
    obtain ⟨p, -, hq⟩ := mem_objectsOf_iff.mp hq
    have hkey : q ∈ g.objects.keys := by
      cases hfind : g.targets.find? p with
      | none => simp [objectsAt, hfind] at hq
      | some t =>
        have hobject : q ∈ t.objects := by simpa [objectsAt, hfind] using hq
        exact hg.targets_objects _ (Table.mem_of_find? hfind) q hobject
    exact ⟨hkey, hkey⟩
  constructor
  case order => exact fun goals order h ↦ horder h
  case build =>
    intro o goals? run run' e hrun
    refine FailsAs.of_run (P := Failure.FindsKeys) ?_ run e run' hrun
    refine .ofExcept_bind (.mapError _ (by simp)) fun order ho ↦ ?_
    obtain ⟨htargets, hobjects⟩ := horder (mapError_eq_ok.mp ho)
    refine .bind (findsKeys_staleActions fun p hp ↦ ?_) fun stale ↦ .bind (findsKeys_compileStale ..) fun _ ↦
      .bind (findsKeys_realizeAll (fun p hp ↦ ?_) _) fun result ↦ .bind (.say _) fun _ ↦ .pure _
    · exact (Table.contains_iff_mem_keys ..).mpr (hobjects p hp).2
    · exact (Table.contains_iff_mem_keys ..).mpr (htargets p hp).2
  case clean =>
    intro o run run' e hrun
    refine FailsAs.of_run (P := Failure.FindsKeys) ?_ run e run' hrun
    exact .bind (.ofExcept (.mapError _ (by simp))) fun products ↦
      .bind (findsKeys_removeAll ..) fun removed ↦ .bind (.say _) fun _ ↦ .pure _

end Graph

/-- What is visited is the module of an occurrence. -/
theorem Module.Visited.exists_occurrence {targetDir : Path} {visits : List Visit} {os : List Occurrence}
    (h : Visited targetDir visits os) {v : Visit} (hv : v ∈ visits) : ∃ o ∈ os, v.module = o.module := by
  have hmem : (v.module, v.target) ∈ os.map fun o ↦ (o.module, o.target targetDir) := by
    rw [← h]
    exact List.mem_map_of_mem hv
  obtain ⟨o, ho, heq⟩ := List.mem_map.mp hmem
  exact ⟨o, ho, (Prod.mk.inj heq).1.symm⟩

namespace Project

variable {p : Project} {t : FileTree} {root : Module} {s : Settings} {a : Assembly}

/-- The sources that a walk meets are in known languages, told alike by the listed source and by its path, for whose
suffix there is a rule. -/
def FindsLanguages (s : Settings) (visits : List Visit) : Prop :=
  ∀ v ∈ visits, ∀ source ∈ v.module.sources, ∃ l, Language.ofSource? (.ofString source) = some l ∧
    Language.ofSource? (v.module.directory / Path.ofString source) = some l ∧
    ∃ rule, s.compileRules.find? (fun r ↦ r.suffix = (v.module.directory / Path.ofString source).suffix) = some rule ∧
      rule.language = l ∧ rule.compiler = s.compiler l

theorem findsLanguages_of_unsupported {visits : List Visit} (h : ∀ v ∈ visits, v.module.unsupported = []) :
    FindsLanguages s visits := by
  intro v hv source hsource
  cases hl : Language.ofSource? (.ofString source) with
  | none =>
    have hbad : source ∈ v.module.unsupported := List.mem_filter.mpr ⟨hsource, by simp [hl]⟩
    simp [h v hv] at hbad
  | some l =>
    have hjoin : Language.ofSource? (v.module.directory / Path.ofString source) = some l := Language.ofSource?_join hl
    exact ⟨l, rfl, hjoin, _, s.find?_compileRules hjoin, rfl, rfl⟩

/-- The graph of a project whose modules can be walked: commands can be synthesized for it, it is the graph that the
project resolves to, if it resolves, and whatever its headers, its tables go together, its objects are compiled in the
languages of their sources, and neither building nor cleaning it looks up a key that is missing. -/
theorem synthesize_findsKeys (hload : p.load t = .ok (root, s))
    (hwalk : ((Assembly.start s).follow (root.walkFrom t p.directory s.targetDir)).2 = .ok a) :
    ∃ g, graphOf s a = .ok g ∧
      (∀ r, (p.resolve t).2 = .ok r → r = ⟨{ g with headers := r.graph.headers }, s⟩) ∧
      FindsLanguages s (root.walkFrom t p.directory s.targetDir).visits ∧
      ∀ headers, ({ g with headers } : Graph).Closed ∧ ({ g with headers } : Graph).Typed s ∧
        ({ g with headers } : Graph).FindsKeys := by
  obtain ⟨os, ending, hunfolds, hvisited, hfollow⟩ := follow_walkFrom t p.directory root s
  cases hnone : (⟨s, ⟨root, []⟩ :: os⟩ : Blueprint).fault? <|> ending with
  | some f =>
    rw [hnone, hwalk] at hfollow
    cases hfollow
  | none =>
    rw [hnone] at hfollow
    obtain ⟨a', ha', hfollows⟩ := hfollow
    obtain rfl := Except.ok.inj (hwalk.symm.trans ha')
    obtain ⟨hfault, rfl⟩ : (⟨s, ⟨root, []⟩ :: os⟩ : Blueprint).fault? = none ∧ ending = none := by
      simpa using hnone
    refine ⟨_, hfollows.graphOf_eq, ?_, findsLanguages_of_unsupported ?_, fun headers ↦ ?_⟩
    · intro r hr
      obtain ⟨root', os', hresolves⟩ := resolve_eq_ok.mp hr
      obtain ⟨rfl, rfl⟩ : root' = root ∧ r.settings = s := by
        simpa using hresolves.load.symm.trans hload
      obtain ⟨rfl, -⟩ := hunfolds.unique hresolves.unfolds
      exact congrArg₂ Resolved.mk hresolves.graph_eq rfl
    · intro v hv
      obtain ⟨o, ho, hmodule⟩ := hvisited.exists_occurrence hv
      rw [hmodule]
      exact (Blueprint.fault?_eq_none.mp hfault).supported o ho
    · have hclosed := Blueprint.closed_graph ⟨s, ⟨root, []⟩ :: os⟩ headers
      exact ⟨hclosed, Blueprint.typed_graph ⟨s, ⟨root, []⟩ :: os⟩ headers, hclosed.findsKeys⟩

/-- The objects that are compiled, with their languages. -/
def compiledObjects (g : Graph) : List (Path × Language) :=
  g.compileActions.entries.map fun e ↦ (e.1, e.2.object.language)

/-- The objects of `repeatedTree`. -/
def repeatedObjects : List (Path × Language) :=
  [(.ofString "build/a.o", .c), (.ofString "build/lib/../b.o", .c), (.ofString "build/lib/c.o", .cxx)]

theorem synthesize_findsKeys_of_repeated :
    ∃ root s a, ({} : Project).load repeatedTree = .ok (root, s) ∧
      ((Assembly.start s).follow (root.walkFrom repeatedTree .here s.targetDir)).2 = .ok a ∧
      ∃ g, graphOf s a = .ok g ∧
        compiledObjects g = repeatedObjects ∧
        FindsLanguages s (root.walkFrom repeatedTree .here s.targetDir).visits ∧
        ∀ headers, ({ g with headers } : Graph).Closed ∧ ({ g with headers } : Graph).Typed s ∧
          ({ g with headers } : Graph).FindsKeys := by
  have hcomputed : (do
      let (root, s) ← ({} : Project).load repeatedTree
      let a ← ((Assembly.start s).follow (root.walkFrom repeatedTree .here s.targetDir)).2
      graphOf s a).map compiledObjects = .ok repeatedObjects := by
    decide +kernel
  obtain ⟨g, hg, hobjects⟩ := map_eq_ok.mp hcomputed
  obtain ⟨⟨root, s⟩, hload, hg⟩ := bind_eq_ok.mp hg
  obtain ⟨a, hwalk, hg⟩ := bind_eq_ok.mp hg
  obtain ⟨g', hg', -, hlanguages, hall⟩ := synthesize_findsKeys hload hwalk
  obtain rfl := Except.ok.inj (hg.symm.trans hg')
  exact ⟨root, s, a, hload, hwalk, g, hg, hobjects, hlanguages, hall⟩

end Project

end ModuleBuild
