import ModuleBuild.Proofs.Build.Course
import ModuleBuild.Proofs.Build.Planning

/-!
# Faults that are found before the first command

A build finds the order of its targets and judges all their objects before it compiles the first of them. So a goal that
is no target, a target that needs itself, or a missing source (`EarlyFault`) stops it before it has started a command or
touched a file, whatever else is to be done (`build_spares_all`).
-/

namespace ModuleBuild

namespace Graph

open FileTree RunM
open Relation (TransGen)

/-- What is at fault before anything is made. -/
inductive EarlyFault (g : Graph) (t : FileTree) (project : Path) (goals : List Path) : BuildError → Prop where
  | goal {p : Path} (isGoal : p ∈ goals) (undeclared : ¬g.targets.contains p) :
      EarlyFault g t project goals (.unknownGoal p)
  | cycle {p : Path} (leads : g.Leads goals p) (needsItself : TransGen g.Needs p p) :
      EarlyFault g t project goals (.circular p)
  | source {p : Path} {x : ObjectRecord} (leads : g.Leads goals p) (needed : x.path ∈ g.objectsAt p)
      (object : x ∈ g.objects.values) (missing : Missing t project x.source) :
      EarlyFault g t project goals (.noRule x.source x.path)

/-- Whatever is missing of the objects that goals lead to, and of what these are made from, is not found when it is
looked up. -/
def FindsMissing (g : Graph) (t : FileTree) (project : Path) (goals : List Path) : Prop :=
  ∀ p, g.Leads goals p → ∀ x ∈ g.objects.values, x.path ∈ g.objectsAt p →
    ∀ q ∈ x.path :: g.inputsOf x, Missing t project q → modified? t project q = .ok none

variable {g : Graph} {o : BuildOptions} {project : Path} {t : FileTree} {goals order : List Path} {e : BuildError}

/-- A path that is not found if it is missing can be looked up. -/
theorem exists_modified?_of_missing {q : Path} (h : Missing t project q → modified? t project q = .ok none) :
    ∃ m?, modified? t project q = .ok m? := by
  by_cases hq : Missing t project q
  · exact ⟨none, h hq⟩
  · obtain ⟨m, hm⟩ := Option.ne_none_iff_exists'.mp hq
    exact ⟨some m, modified?_of_time? hm⟩

/-- Where there is an order of targets, a source is what can be at fault. -/
theorem EarlyFault.exists_source (h : g.EarlyFault t project goals e) (horder : g.targetOrder goals = .ok order) :
    ∃ x ∈ g.objects.values, x.path ∈ g.objectsOf order ∧ Missing t project x.source := by
  cases h with
  | goal isGoal undeclared => exact absurd ((places_placeGoals horder).2 _ isGoal) undeclared
  | cycle leads needsItself => exact absurd ⟨_, leads, needsItself⟩ (not_hasCycle_of_targetOrder horder)
  | @source p x leads needed object missing =>
    exact ⟨x, object, mem_objectsOf_iff.mpr ⟨p, (mem_targetOrder horder).mpr leads, needed⟩, missing⟩

section

variable (hg : g.Coherent) (hclosed : g.Closed)

include hg hclosed

/-- A fault in planning ends a build before it has started a command or touched a file. It is named, unless something
that is missing cannot be looked up. -/
theorem build_of_earlyFault (goals? : Option (List Path))
    (hfault : ∃ e, g.EarlyFault t o.project (goals?.getD g.defaultGoals) e) :
    ∃ f, Runs (g.build o goals?) t [] (.error f) t ∧
      (g.FindsMissing t o.project (goals?.getD g.defaultGoals) →
        ∃ e, f = .build e ∧ g.EarlyFault t o.project (goals?.getD g.defaultGoals) e) := by
  obtain ⟨e, hfault⟩ := hfault
  have hordered := runs_ofExcept ((g.targetOrder (goals?.getD g.defaultGoals)).mapError .build) t
  unfold build
  cases horder : g.targetOrder (goals?.getD g.defaultGoals) with
  | error e =>
    rw [horder] at hordered
    refine ⟨.build e, hordered.bind_error, fun _ ↦ ⟨e, rfl, ?_⟩⟩
    rcases fault_of_targetOrder horder with ⟨p, rfl, hleads, hcycle⟩ | ⟨p, hp, hundeclared, rfl⟩
    · exact .cycle hleads hcycle
    · exact .goal hp hundeclared
  | ok order =>
    rw [horder] at hordered
    obtain ⟨x, hx, hneeded, hmissing⟩ := hfault.exists_source horder
    -- the stale objects are not known until all have been judged, and one of them cannot be
    have hunjudged (as : List CompileAction) : ¬Judges g t o.project (g.objectsOf order) as :=
      fun hjudges ↦ hjudges.not_missing hg hx hneeded hmissing
    obtain ⟨commands, answer, t', hruns⟩ := (total_staleActions g o (g.objectsOf order)).runs t
    obtain ⟨rfl, rfl⟩ := silent_staleActions hruns
    cases answer with
    | ok as => exact absurd (runs_staleActions_ok.mp hruns).1 (hunjudged as)
    | error f =>
      refine ⟨f, hordered.silent_bind hruns.bind_error, fun hfinds ↦ ?_⟩
      have hactions : ∀ q ∈ g.objectsOf order, ∃ a, g.compileActions.find? q = some a ∧
          ∀ p ∈ a.object.path :: g.inputsOf a.object, ∃ m?, modified? t' o.project p = .ok m? := by
        intro q hq
        obtain ⟨a, ha, rfl, hobject⟩ := exists_action_of_targetOrder hg hclosed horder hq
        obtain ⟨p, hp, hat⟩ := mem_objectsOf_iff.mp hq
        exact ⟨a, ha, fun q hq ↦ exists_modified?_of_missing
          (hfinds p ((mem_targetOrder horder).mp hp) a.object hobject hat q hq)⟩
      rcases staleActions_of_modified? hactions with ⟨as, hjudges⟩ | ⟨q, hq, a, ha, hgone, hstops⟩
      · exact absurd hjudges (hunjudged as)
      · obtain ⟨-, hanswer, -⟩ := hstops.unique hruns
        obtain rfl := Except.error.inj hanswer
        obtain ⟨rfl, hobject⟩ := hg.compileAction q a ha
        obtain ⟨p, hp, hat⟩ := mem_objectsOf_iff.mp hq
        exact ⟨_, rfl, .source ((mem_targetOrder horder).mp hp) hat (mem_values_of_object hobject) hgone⟩

end

end Graph

namespace Rehearsal

/-- A program whose source is there, and behind it a library whose source is not. -/
def halfTree : FileTree := .ofFiles (.ofSeconds 100) [
  ("main.ini", "[module]\ntarget=app\nsources=a.c\nsubmodules=lib", .ofSeconds 50),
  ("lib/module.ini", "[module]\ntarget=libz.a\nsources=z.c", .ofSeconds 50),
  ("a.c", "", .ofSeconds 50)]

/-- The graph of the project. -/
def halfGraph : Graph :=
  (⟨{}, [
    ⟨{ path := .ofString "main.ini", directory := .here, target := "app", sources := ["a.c"],
       submodules := ["lib"] }, []⟩,
    ⟨{ path := .ofString "lib/module.ini", directory := .ofString "lib", target := "libz.a",
       sources := ["z.c"] }, []⟩]⟩
    : Blueprint).graph

end Rehearsal

namespace Graph

/-- A build of a resolved project that has a fault in planning starts no command and leaves the tree as it was, whatever
its tools are and however much is stale. -/
theorem build_spares_all {p : Project} {t₀ : FileTree} {r : Resolved} (hresolve : (p.resolve t₀).2 = .ok r)
    (o : BuildOptions) (goals? : Option (List Path)) (run : Run)
    (hfault : ∃ e, r.graph.EarlyFault run.tree o.project (goals?.getD r.graph.defaultGoals) e) :
    ∃ f run', (r.graph.build o goals?).run.run run = (.error f, run') ∧
      run'.tree = run.tree ∧ run'.commands = run.commands ∧
      (r.graph.FindsMissing run.tree o.project (goals?.getD r.graph.defaultGoals) →
        ∃ e, f = .build e ∧ r.graph.EarlyFault run.tree o.project (goals?.getD r.graph.defaultGoals) e) := by
  obtain ⟨root, os, hresolves⟩ := Project.resolve_eq_ok.mp hresolve
  have hclosed : r.graph.Closed := by
    rw [hresolves.graph_eq]
    exact Blueprint.closed_graph _ _
  obtain ⟨f, hruns, hnamed⟩ := build_of_earlyFault hresolves.coherent hclosed goals? hfault
  obtain ⟨run', hrun, htree, hcommands⟩ := hruns.run run rfl
  exact ⟨f, run', hrun, htree, by simpa using hcommands, hnamed⟩

open Rehearsal in
set_option maxRecDepth 10000 in
/-- The source of the last object is missing, and the first object, which is stale, is not compiled. -/
theorem build_spares_all_of_last :
    halfGraph.targetOrder halfGraph.defaultGoals = .ok [.ofString "app", .ofString "libz.a"] ∧
      halfGraph.objectsOf [.ofString "app", .ofString "libz.a"] = [.ofString "build/a.o", .ofString "build/lib/z.o"] ∧
      Missing halfTree .here (.ofString "build/a.o") ∧
      ∃ run', (halfGraph.build options none).run.run (start halfTree) =
          (.error (.build (.noRule (.ofString "lib/z.c") (.ofString "build/lib/z.o"))), run') ∧
        run'.tree = halfTree ∧ run'.commands = [] := by
  have hresolve : (({} : Project).resolve halfTree).2.toOption = some ⟨halfGraph, {}⟩ := by decide +kernel
  have hmissing : halfTree.time? (.here / .ofString "lib/z.c") = none := by decide +kernel
  have hnew : halfTree.time? (.here / .ofString "build/a.o") = none := by decide +kernel
  have hfinds : ∀ x ∈ halfGraph.objects.values, ∀ q ∈ x.path :: halfGraph.inputsOf x,
      halfTree.time? (.here / q) = none → modified? halfTree .here q = .ok none := by
    decide +kernel
  obtain ⟨x, hx, hpath, hsource⟩ : ∃ x ∈ halfGraph.objects.values,
      x.path = .ofString "build/lib/z.o" ∧ x.source = .ofString "lib/z.c" := by
    decide +kernel
  have hneeded : Path.ofString "build/lib/z.o" ∈ halfGraph.objectsAt (.ofString "libz.a") := by decide +kernel
  have hleads : halfGraph.Leads halfGraph.defaultGoals (.ofString "libz.a") :=
    ⟨_, by decide +kernel, .refl⟩
  have hfault : halfGraph.EarlyFault halfTree .here halfGraph.defaultGoals (.noRule x.source x.path) :=
    .source hleads (hpath ▸ hneeded) hx (by rw [hsource]; exact hmissing)
  obtain ⟨f, run', hrun, htree, hcommands, hnamed⟩ :=
    build_spares_all (toOption_eq_some.mp hresolve) options none (start halfTree) ⟨_, hfault⟩
  obtain ⟨e, rfl, -⟩ := hnamed fun _ _ x hx _ q hq ↦ hfinds x hx q hq
  have hanswer : ((halfGraph.build options none).run.run (start halfTree)).1 =
      .error (.build (.noRule (.ofString "lib/z.c") (.ofString "build/lib/z.o"))) := by
    decide +kernel
  rw [hrun] at hanswer
  rw [← hanswer]
  exact ⟨by decide +kernel, by decide +kernel, hnew, run', hrun, htree, hcommands⟩

end Graph

end ModuleBuild
