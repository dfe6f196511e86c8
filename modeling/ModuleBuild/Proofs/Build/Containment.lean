import ModuleBuild.Proofs.Build.Cleaning
import ModuleBuild.Proofs.Path.Containment
import ModuleBuild.Proofs.Source.Files

/-!
# What stays below the build directory

The path of an object mirrors that of its source under the build directory. So the files of an object lie below the
build directory exactly if the source, put there, stays below it (`Project.resolve_contained`); then compiling writes
and cleaning removes them there. A source outside of the project takes its object out of the build directory, and
cleaning a file out of the project (`Project.resolve_escapes`).
-/

namespace ModuleBuild

/-- The path of an object in a module's directory is that of its source, put under the build directory, with the
suffix of objects. -/
theorem Module.exists_mirror {buildDir : Path} {m : Module} {x : ObjectRecord} (h : x ∈ m.records buildDir) :
    ∃ q, x.source.withSuffix? .object = some q ∧ x.path = buildDir / q := by
  obtain ⟨source, -, language, object, -, hobject, rfl⟩ := exists_of_mem_records h
  unfold objectPath at hobject
  split at hobject
  · next q hq =>
    cases hobject
    exact ⟨m.directory / q, Path.withSuffix?_join hq, Path.join_assoc ..⟩
  · simp at hobject

namespace Graph

variable {g : Graph} {o : BuildOptions} {ps : List Path}

/-- The graph of which only the objects are left. -/
def onlyObjects (g : Graph) : Graph := { g with targets := .empty, targetActions := .empty }

theorem Coherent.onlyObjects (hg : g.Coherent) : g.onlyObjects.Coherent where
  compileAction := hg.compileAction
  object := hg.object
  objects_keys := hg.objects_keys
  objects_nodup := hg.objects_nodup
  targetActions_keys := rfl
  targetAction := by simp [Graph.onlyObjects]

/-- Compiling changes nothing but the files of objects, and makes directories. -/
theorem Coherent.within_compileAll (hg : g.Coherent) (hproducts : g.onlyObjects.products = .ok ps)
    (htools : o.tools.Confined g o.project) {as : List CompileAction}
    (has : ∀ a ∈ as, g.compileActions.find? a.object.path = some a) {run run' : Run} {answer : Except Failure Unit}
    (ht : run.tree.WellFormed) (h : (compileAll o as).run.run run = (answer, run')) :
    Within o.project ps run.tree run'.tree := by
  obtain ⟨commands, hruns, -⟩ := (total_compileAll o as).of_run h
  obtain ⟨done, hdone, hcarries⟩ := carries_compileAll hruns
  have hconfined : o.tools.Confined g.onlyObjects o.project :=
    ⟨htools.compile, fun p a command t t' r hfind ↦ by simp [Graph.onlyObjects] at hfind⟩
  have hpasses : g.onlyObjects.Passes o (fun _ ↦ True) run.tree run'.tree := by
    apply passes_carries hg.onlyObjects (fun _ ↦ trivial) ?_ ?_ hcarries
    · intro a ha
      exact has a (hdone.subset (by simpa using ha))
    · simp
  exact within_passes hg.onlyObjects hproducts hconfined ht hpasses

/-- What keeps to some paths changes only what they lead to, and makes directories. -/
theorem Within.entry?_eq_or {project : Path} {t t' : FileTree} (h : Within project ps t t') (l : Location) :
    t'.entry? l = t.entry? l ∨ t.entry? l = none ∧ t'.entry? l = some (.directory t.clock) ∨
      ∃ q ∈ ps, l = t.place (project / q) := by
  by_cases hl : l ∈ reach t' project ps
  · obtain ⟨q, hq, hlocate⟩ := hl
    exact .inr (.inr ⟨q, hq, (FileTree.eq_place_of_locate hlocate).trans (FileTree.place_congr h.current _)⟩)
  · rcases h.kept l hl with hkept | ⟨hnone, -, hmade⟩
    · exact .inl hkept
    · exact .inr (.inl ⟨hnone, hmade⟩)

end Graph

namespace Project

variable {p : Project} {t : FileTree} {r : Resolved}

/-- A file of an object stands at the location, below the build directory if the source of the object stays there. -/
def HasFileAt (r : Resolved) (t : FileTree) (project : Path) (l : Location) : Prop :=
  ∃ x ∈ r.graph.objects.values, (∃ q, x.IsFile q ∧ l = t.place (project / q)) ∧
    (x.source.StaysBelow r.settings.buildDir → l.IsBelow (t.place (project / r.settings.buildDir)))

namespace Resolves

variable {root : Module} {os : List Occurrence} (hr : p.Resolves t r root os) {x : ObjectRecord}
  (hx : x ∈ r.graph.objects.values)

include hr hx

theorem exists_mirror : ∃ q, x.source.withSuffix? .object = some q ∧ x.path = r.settings.buildDir / q := by
  rw [hr.graph_eq] at hx
  obtain ⟨e, he, rfl⟩ := List.mem_map.mp hx
  obtain ⟨o, -, hrecord⟩ := List.mem_flatMap.mp (Blueprint.mem_records he).1
  exact Module.exists_mirror hrecord

/-- All files of an object have one directory, and under the build directory it is that of the source. -/
theorem isBelow_iff {q : Path} (hq : x.IsFile q) :
    q.IsBelow r.settings.buildDir ↔ x.source.StaysBelow r.settings.buildDir := by
  obtain ⟨mirror, hsuffix, hpath⟩ := hr.exists_mirror hx
  obtain ⟨-, hobject, hlanguage⟩ := hr.coherent.object _ _ (hr.coherent.find?_of_mem hx)
  obtain ⟨s, hname, hs, -⟩ := Language.exists_name_of_ofSource? hlanguage
  obtain ⟨n, y, hqname, -, hn⟩ := hq.exists_name
  obtain ⟨n', y', hxname, -, hn'⟩ := hobject.isFile_path.exists_name
  obtain ⟨hmirrored, hup, hparent⟩ := Path.name?_of_withSuffix? hsuffix hname Suffix.text_object (by decide)
  rw [Path.isBelow_congr hqname hn hxname hn' hq.parent_eq, hpath, Path.isBelow_join_iff hmirrored hup,
    Path.staysBelow_congr hmirrored hup hname hs hparent]

theorem hasFileAt {q : Path} (hq : q = x.path ∨ x.dependencies = .ok q ∨ x.listing = .ok q) (t' : FileTree)
    (project : Path) : HasFileAt r t' project (t'.place (project / q)) := by
  have hfile : x.IsFile q := (hr.coherent.object _ _ (hr.coherent.find?_of_mem hx)).2.1.isFile_iff.mpr hq
  exact ⟨x, hx, ⟨q, hfile, rfl⟩, fun hstays ↦ ((hr.isBelow_iff hx hfile).mpr hstays).isBelow_place t' project⟩

end Resolves

/-- The files of objects lie under the build directory as sources lie in the project, and nothing else is written when
objects are compiled, or removed when they are cleaned. -/
structure Contained (r : Resolved) : Prop where
  /-- The path of an object is that of its source with the suffix of objects, put under the build directory. -/
  mirrors : ∀ x ∈ r.graph.objects.values, ∃ q, x.source.withSuffix? .object = some q ∧ x.path = r.settings.buildDir / q
  /-- An object, its descriptor and its listing lie below the build directory exactly if the source stays there. -/
  isBelow_iff : ∀ x ∈ r.graph.objects.values, ∀ q, x.IsFile q →
    (q.IsBelow r.settings.buildDir ↔ x.source.StaysBelow r.settings.buildDir)
  /-- However compiling objects ends, files of objects have changed, directories have been made, and that is all. -/
  compileAll : ∀ (o : BuildOptions) (as : List CompileAction) (run run' : Run) (answer : Except Failure Unit),
    o.tools.Confined r.graph o.project → (∀ a ∈ as, r.graph.compileActions.find? a.object.path = some a) →
    run.tree.WellFormed → (Graph.compileAll o as).run.run run = (answer, run') →
    ∀ l, run'.tree.entry? l = run.tree.entry? l ∨
      run.tree.entry? l = none ∧ run'.tree.entry? l = some (.directory run.tree.clock) ∨
      HasFileAt r run.tree o.project l
  /-- However cleaning ends, files of objects and targets are gone, and that is all. -/
  clean : ∀ (o : BuildOptions) (run run' : Run) (answer : Except Failure (List Path)),
    (r.graph.clean o).run.run run = (answer, run') →
    ∀ l, run'.tree.entry? l = run.tree.entry? l ∨ run'.tree.entry? l = none ∧
      (HasFileAt r run.tree o.project l ∨ ∃ q ∈ r.graph.targets.keys, l = run.tree.place (o.project / q))

/-- Objects of a resolved project are contained in the build directory as far as their sources are in the project. -/
theorem resolve_contained (h : (p.resolve t).2 = .ok r) : Contained r := by
  obtain ⟨root, os, hr⟩ := resolve_eq_ok.mp h
  have hg := hr.coherent
  constructor
  case mirrors => exact fun x hx ↦ hr.exists_mirror hx
  case isBelow_iff => exact fun x hx q hq ↦ hr.isBelow_iff hx hq
  case compileAll =>
    intro o as run run' answer htools has ht hrun l
    obtain ⟨ps, hproducts⟩ := hg.onlyObjects.exists_products
    rcases (hg.within_compileAll hproducts htools has ht hrun).entry?_eq_or l with hkept | hmade | ⟨q, hq, rfl⟩
    · exact .inl hkept
    · exact .inr (.inl hmade)
    · obtain ⟨x, hx, hfile⟩ := ((hg.onlyObjects.mem_products hproducts).mp hq).resolve_left List.not_mem_nil
      exact .inr (.inr (hr.hasFileAt hx hfile run.tree o.project))
  case clean =>
    intro o run run' answer hrun l
    obtain ⟨ps, hproducts⟩ := hg.exists_products
    obtain ⟨ls, hls, hclears⟩ := Graph.clears_clean hproducts hrun
    by_cases hl : l ∈ ls
    · obtain ⟨q, hq, -, rfl⟩ := hls hl
      refine .inr ⟨(hclears.gone _ hl).1, ?_⟩
      rcases (hg.mem_products hproducts).mp hq with htarget | ⟨x, hx, hfile⟩
      · exact .inr ⟨q, htarget, rfl⟩
      · exact .inl (hr.hasFileAt hx hfile run.tree o.project)
    · exact .inl (hclears.kept l hl)

/-- Sources that climb out of the directory of a module. Under the build directory two of them stay below it, one of
these since it comes back; the third is absolute. -/
def returningTree : FileTree := .ofFiles (.ofSeconds 100) [
  ("main.ini", "[project]\nbuild_dir=out/obj\n[module]\ntarget=app\nsubmodules=lib", .ofSeconds 50),
  ("lib/module.ini", "[module]\nsources=../b.c ../../obj/c.c /d.c", .ofSeconds 50)]

/-- The descriptors beside the objects of the first two lie below the build directory. -/
theorem resolve_contained_of_returning : ∃ r, (({} : Project).resolve returningTree).2 = .ok r ∧ Contained r ∧
    r.graph.objects.keys = [.ofString "out/obj/lib/../b.o", .ofString "out/obj/lib/../../obj/c.o", .ofString "/d.o"] ∧
    ∀ x ∈ r.graph.objects.values, ∀ q, x.dependencies = .ok q →
      (q.IsBelow r.settings.buildDir ↔ x.source ≠ .ofString "/d.c") := by
  have hcomputed : (({} : Project).resolve returningTree).2.toOption.map (fun r ↦ (r.graph.objects.keys,
        decide (∀ x ∈ r.graph.objects.values,
          x.source.StaysBelow r.settings.buildDir ↔ x.source ≠ .ofString "/d.c"))) =
      some ([.ofString "out/obj/lib/../b.o", .ofString "out/obj/lib/../../obj/c.o", .ofString "/d.o"], true) := by
    decide +kernel
  obtain ⟨r, hr, hgraph⟩ := Option.map_eq_some_iff.mp hcomputed
  obtain ⟨hkeys, hstays⟩ := Prod.mk.inj hgraph
  have hresolve := toOption_eq_some.mp hr
  have hcontained : Contained r := resolve_contained hresolve
  refine ⟨r, hresolve, hcontained, hkeys, fun x hx q hq ↦ ?_⟩
  have hfile : x.IsFile q := ⟨.dependencies, by simp [Suffix.ofFiles], hq⟩
  exact (hcontained.isBelow_iff x hx q hfile).trans (of_decide_eq_true hstays x hx)

/-- A source outside of the project, and a file that bears the name of its object. -/
def escapingTree : FileTree := .ofFiles (.ofSeconds 100) [
  ("main.ini", "[module]\ntarget=app\nsources=../a.c", .ofSeconds 50), ("a.o", "", .ofSeconds 50),
  ("build/b.o", "", .ofSeconds 50)]

/-- What escaping source files resolve to. -/
def escaping : Resolved :=
  ⟨(⟨{}, [⟨{ path := .ofString "main.ini", directory := .here, target := "app", sources := ["../a.c"] }, []⟩]⟩
    : Blueprint).graph, {}⟩

/-- What cleaning leaves of them. -/
def escapingRun : Except Failure (List Path) × Run := (escaping.graph.clean {}).run.run { tree := escapingTree }

/-- The object of a source outside of the project is not below the build directory, and cleaning takes a file of the
project for it. -/
theorem resolve_escapes :
    (({} : Project).resolve escapingTree).2 = .ok escaping ∧
      (∃ x ∈ escaping.graph.objects.values, ¬x.path.IsBelow escaping.settings.buildDir) ∧
      escapingTree.hasFile (.ofString "a.o") ∧ escapingRun.1.toOption = some [.ofString "build/../a.o"] ∧
      escapingRun.2.tree.hasFile (.ofString "a.o") = false := by
  decide +kernel

end Project
end ModuleBuild
