import ModuleBuild.Proofs.Build.Locality
import ModuleBuild.Proofs.Build.Rehearsal
import Mathlib.Data.List.Pairwise
import Mathlib.Data.List.Perm.Basic

/-!
# Compiles in any order

Compiles that write different files, none of them above another object, can be exchanged where one follows the
other (`exists_exchange`), so that they can be run in any order, to the same contents (`compileAll_perm`).
-/

namespace ModuleBuild.Graph

open FileTree

variable {g : Graph} {o : BuildOptions} {project : Path} {t t' t₁ t₂ u : FileTree} {a b : CompileAction}
  {as as' : List CompileAction} {c d : List String} {commands : List (List String)}

/-- Two compiles write different files, and neither writes above the object of the other. -/
structure Independent (t : FileTree) (project : Path) (a b : CompileAction) : Prop where
  disjoint : ∀ l ∈ footprint t project a.object, l ∉ footprint t project b.object
  notAbove : ∀ l ∈ footprint t project a.object, l ∉ above (t.place (project / b.object.path))
  notAbove' : ∀ l ∈ footprint t project b.object, l ∉ above (t.place (project / a.object.path))

theorem Independent.symm (h : Independent t project a b) : Independent t project b a where
  disjoint := fun l hl hl' ↦ h.disjoint l hl' hl
  notAbove := h.notAbove'
  notAbove' := h.notAbove

/-- Whether compiles are independent hangs on the current directory alone. -/
theorem Independent.congr (h : Independent t project a b) (hcurrent : u.current = t.current) :
    Independent u project a b := by
  obtain ⟨hdisjoint, habove, habove'⟩ := h
  constructor
  · rwa [footprint_eq hcurrent, footprint_eq hcurrent]
  · rwa [footprint_eq hcurrent, FileTree.place_congr hcurrent]
  · rwa [footprint_eq hcurrent, FileTree.place_congr hcurrent]

/-- Compiles of objects that are different files write different files, and are independent if none of these
stands above the objects. -/
theorem independent_of_place_ne (hg : g.Coherent) (ha : g.compileActions.find? a.object.path = some a)
    (hb : g.compileActions.find? b.object.path = some b) (has : (project / a.object.path).IsStraight)
    (hbs : (project / b.object.path).IsStraight)
    (hne : t.place (project / a.object.path) ≠ t.place (project / b.object.path))
    (habove : ∀ l ∈ footprint t project a.object, l ∉ above (t.place (project / b.object.path)))
    (habove' : ∀ l ∈ footprint t project b.object, l ∉ above (t.place (project / a.object.path))) :
    Independent t project a b := by
  have ha := (hg.object _ _ (hg.compileAction _ a ha).2).2.1
  have hb := (hg.object _ _ (hg.compileAction _ b hb).2).2.1
  refine ⟨?_, habove, habove'⟩
  rintro l (rfl | hl) (heq | hl')
  · exact hne heq
  · exact ha.place_notMem_byproducts t has hbs hl'
  · exact hb.place_notMem_byproducts t hbs has (heq ▸ hl)
  · exact ObjectRecord.byproducts_disjoint t ha hb has hbs hne hl hl'

section

variable (hg : g.Coherent) (htools : o.tools.Repeats g o.project)

include hg htools

theorem wellFormed_of_compiles (ht : t.WellFormed) (ha : g.compileActions.find? a.object.path = some a)
    (hs : (o.project / a.object.path).IsStraight) (h : Compiles o a t t' c) : t'.WellFormed :=
  (touches_compiles hg htools ha hs ht h).1.wellFormed ht

/-- Two independent compiles can be exchanged. -/
theorem exists_exchange (ht : t.WellFormed) (ha : g.compileActions.find? a.object.path = some a)
    (hb : g.compileActions.find? b.object.path = some b) (has : (o.project / a.object.path).IsStraight)
    (hbs : (o.project / b.object.path).IsStraight) (hab : Independent t o.project a b)
    (h₁ : Compiles o a t t₁ c) (h₂ : Compiles o b t₁ t₂ d) :
    ∃ u₁ u₂, Compiles o b t u₁ d ∧ Compiles o a u₁ u₂ c ∧ t₂.SameContents u₂ := by
  obtain ⟨htouches₁, hclear₁, hdirectory₁⟩ := touches_compiles hg htools ha has ht h₁
  have ht₁ := htouches₁.wellFormed ht
  obtain ⟨htouches₂, hclear₂, hdirectory₂⟩ := touches_compiles hg htools hb hbs ht₁ h₂
  rw [footprint_eq htouches₁.current, htouches₁.place_eq] at htouches₂
  rw [htouches₁.place_eq] at hclear₂ hdirectory₂
  -- the second one can come first
  have hclear : t.IsClear (t.place (o.project / b.object.path)).tail :=
    (htouches₁.isClear_iff fun l hl hl' ↦ hab.notAbove l hl' hl).mp hclear₂
  obtain ⟨u₁, h₁', hagree₁⟩ := compiles_alike hg htools hb hbs ht₁ ht htouches₁.current.symm h₂
    (htouches₁.place_eq _ ▸ hclear) fun l hl ↦ by
      rw [footprint_eq htouches₁.current] at hl
      exact (htouches₁.agreeAt (fun hl' ↦ hab.disjoint l hl' hl) (hab.notAbove' l hl)).symm
  rw [htouches₁.place_eq] at hagree₁
  obtain ⟨htouches₁', -, hdirectory₁'⟩ := touches_compiles hg htools hb hbs ht h₁'
  -- and then the first one can follow
  have hu₁ := htouches₁'.wellFormed ht
  have hclear' : u₁.IsClear (t.place (o.project / a.object.path)).tail :=
    (htouches₁'.isClear_iff fun l hl hl' ↦ hab.notAbove' l hl' hl).mpr hclear₁
  obtain ⟨u₂, h₂', hagree₂⟩ := compiles_alike hg htools ha has ht hu₁ htouches₁'.current h₁ hclear'
    fun l hl ↦ htouches₁'.agreeAt (hab.disjoint l hl) (hab.notAbove l hl)
  obtain ⟨htouches₂', -, hdirectory₂'⟩ := touches_compiles hg htools ha has hu₁ h₂'
  rw [footprint_eq htouches₁'.current, htouches₁'.place_eq] at htouches₂'
  rw [htouches₁'.place_eq] at hdirectory₂'
  refine ⟨u₁, u₂, h₁', h₂', ?_, ?_, fun l ↦ ?_⟩
  · exact (htouches₂'.current.trans htouches₁'.current).trans
      (htouches₂.current.trans htouches₁.current).symm
  · exact (htouches₂'.clock.trans htouches₁'.clock).trans (htouches₂.clock.trans htouches₁.clock).symm
  by_cases hla : l ∈ above (t.place (o.project / a.object.path))
  · obtain ⟨m, hm⟩ := hdirectory₁ l hla
    obtain ⟨m', hm'⟩ := hdirectory₂' l hla
    exact .of_directory (htouches₂.directory l m hm) hm'
  by_cases hlb : l ∈ above (t.place (o.project / b.object.path))
  · obtain ⟨m, hm⟩ := hdirectory₂ l hlb
    obtain ⟨m', hm'⟩ := hdirectory₁' l hlb
    exact .of_directory hm (htouches₂'.directory l m' hm')
  by_cases hl : l ∈ footprint t o.project b.object
  · have hnot : l ∉ footprint t o.project a.object := fun hl' ↦ hab.disjoint l hl' hl
    exact (hagree₁ l (.inr (htouches₁.agreeAt hnot hla).symm)).trans (htouches₂'.agreeAt hnot hla)
  · exact (htouches₂.agreeAt hl hlb).symm.trans (hagree₂ l (.inr (htouches₁'.agreeAt hl hlb)))

/-- Compiles that succeed one after another do so in trees with the same contents. -/
theorem compilesAll_alike (ha : ∀ a ∈ as, g.compileActions.find? a.object.path = some a)
    (hs : ∀ a ∈ as, (o.project / a.object.path).IsStraight) (ht : t.WellFormed) (hu : u.WellFormed)
    (hc : t.SameContents u) (h : CompilesAll o as t t' commands) :
    ∃ u', CompilesAll o as u u' commands ∧ t'.SameContents u' := by
  induction h generalizing u with
  | nil => exact ⟨u, .nil, hc⟩
  | cons first rest ih =>
    next a as t t₁ t' command commands =>
    have ha₀ := ha a List.mem_cons_self
    have hs₀ := hs a List.mem_cons_self
    obtain ⟨htouches, hclear, -⟩ := touches_compiles hg htools ha₀ hs₀ ht first
    have hclear' : u.IsClear (t.place (o.project / a.object.path)).tail := by
      intro l hl bytes m hfile
      obtain ⟨m', hfile'⟩ := (hc.entry l).symm.entry?_eq_file hfile
      exact hclear l hl bytes m' hfile'
    obtain ⟨u₁, first', hagree⟩ := compiles_alike hg htools ha₀ hs₀ ht hu hc.current first hclear'
      fun l _ ↦ hc.entry l
    obtain ⟨htouches', -, -⟩ := touches_compiles hg htools ha₀ hs₀ hu first'
    have hc₁ : t₁.SameContents u₁ := ⟨(htouches'.current.trans hc.current).trans htouches.current.symm,
      (htouches'.clock.trans hc.clock).trans htouches.clock.symm, fun l ↦ hagree l (.inr (hc.entry l))⟩
    obtain ⟨u', rest', hc'⟩ := ih (fun a' ha' ↦ ha a' (List.mem_cons_of_mem _ ha'))
      (fun a' ha' ↦ hs a' (List.mem_cons_of_mem _ ha')) (htouches.wellFormed ht) (htouches'.wellFormed hu) hc₁
    exact ⟨u', .cons first' rest', hc'⟩

/-- Independent compiles can be run in any order, to the same contents. -/
theorem compilesAll_perm (hperm : as.Perm as')
    (ha : ∀ a ∈ as, g.compileActions.find? a.object.path = some a)
    (hs : ∀ a ∈ as, (o.project / a.object.path).IsStraight) (ht : t.WellFormed)
    (hapart : as.Pairwise (Independent t o.project)) (h : CompilesAll o as t t' commands) :
    ∃ commands' u', CompilesAll o as' t u' commands' ∧ commands'.Perm commands ∧ t'.SameContents u' := by
  induction hperm generalizing t t' commands with
  | nil => exact ⟨commands, t', h, .refl _, .refl _⟩
  | cons a hperm ih =>
    cases h with
    | cons first rest =>
      obtain ⟨htouches, -, -⟩ :=
        touches_compiles hg htools (ha a List.mem_cons_self) (hs a List.mem_cons_self) ht first
      have hrest := (List.pairwise_cons.mp hapart).2.imp fun h ↦ h.congr htouches.current
      obtain ⟨commands', u', rest', hcommands, hc⟩ :=
        ih (fun a' ha' ↦ ha a' (List.mem_cons_of_mem _ ha')) (fun a' ha' ↦ hs a' (List.mem_cons_of_mem _ ha'))
          (htouches.wellFormed ht) hrest rest
      exact ⟨_, u', .cons first rest', hcommands.cons _, hc⟩
  | swap b a as =>
    cases h with
    | cons first rest =>
      cases rest with
      | cons second rest =>
        have hab := (List.pairwise_cons.mp hapart).1 b List.mem_cons_self
        have ha₀ := ha a List.mem_cons_self
        have hs₀ := hs a List.mem_cons_self
        have hb := ha b (by simp)
        have hbs := hs b (by simp)
        obtain ⟨u₁, u₂, first', second', hc⟩ := exists_exchange hg htools ht ha₀ hb hs₀ hbs hab first second
        have ht₂ := wellFormed_of_compiles hg htools (wellFormed_of_compiles hg htools ht ha₀ hs₀ first) hb hbs
          second
        have hu₂ := wellFormed_of_compiles hg htools (wellFormed_of_compiles hg htools ht hb hbs first') ha₀ hs₀
          second'
        obtain ⟨u', rest', hc'⟩ := compilesAll_alike hg htools (fun a' ha' ↦ ha a' (by simp [ha']))
          (fun a' ha' ↦ hs a' (by simp [ha'])) ht₂ hu₂ hc rest
        exact ⟨_, u', .cons first' (.cons second' rest'), .swap .., hc'⟩
  | trans hperm hperm' ih ih' =>
    obtain ⟨commands₁, u₁, h₁, hcommands, hc⟩ := ih ha hs ht hapart h
    obtain ⟨commands₂, u₂, h₂, hcommands', hc'⟩ := ih' (fun a' ha' ↦ ha a' (hperm.mem_iff.mpr ha'))
      (fun a' ha' ↦ hs a' (hperm.mem_iff.mpr ha')) ht (hperm.pairwise hapart fun h ↦ h.symm) h₁
    exact ⟨commands₂, u₂, h₂, hcommands'.trans hcommands, hc.trans hc'⟩

end

/-- Compiles of a resolved project can be run in any order: if they succeed in one, they do so in every other,
and to the same contents. Provided that compiles go by their commands alone, and write only their objects and the
listings beside them; that no double dot is in the paths of objects, that the objects are different files, and that
no object, and no file beside one, stands above another object. -/
theorem compileAll_perm {p : Project} {tree : FileTree} {r : Resolved}
    (hresolve : (p.resolve tree).2 = .ok r) (htools : o.tools.Repeats r.graph o.project) (ht : t.WellFormed)
    (hs : ∀ q ∈ r.graph.objects.keys, (o.project / q).IsStraight)
    (habove : ∀ x ∈ r.graph.objects.values, ∀ y ∈ r.graph.objects.values, x.path ≠ y.path →
      ∀ l ∈ footprint t o.project x, l ∉ above (t.place (o.project / y.path)))
    (ha : ∀ a ∈ as, r.graph.compileActions.find? a.object.path = some a)
    (hapart : (as.map fun a ↦ t.place (o.project / a.object.path)).Nodup) (hperm : as.Perm as')
    (h : RunM.Runs (compileAll o as) t commands (.ok ()) t') :
    ∃ commands' u', RunM.Runs (compileAll o as') t commands' (.ok ()) u' ∧ commands'.Perm commands ∧
      t'.SameContents u' := by
  obtain ⟨root, os, hresolves⟩ := Project.resolve_eq_ok.mp hresolve
  have hg := hresolves.coherent
  have hobject : ∀ a ∈ as, a.object ∈ r.graph.objects.values := fun a ha' ↦
    List.mem_map.mpr ⟨_, Table.mem_of_find? (hg.compileAction _ a (ha a ha')).2, rfl⟩
  have hstraight : ∀ a ∈ as, (o.project / a.object.path).IsStraight := by
    intro a ha'
    refine hs _ ((Table.contains_iff_mem_keys ..).mp ?_)
    rw [Table.contains, (hg.compileAction _ a (ha a ha')).2]
    rfl
  have hindependent : as.Pairwise (Independent t o.project) := by
    refine (List.pairwise_map.mp hapart).imp_of_mem fun {a b} ha' hb' hne ↦ ?_
    have hpath : a.object.path ≠ b.object.path := fun heq ↦ hne (by rw [heq])
    apply independent_of_place_ne hg (ha a ha') (ha b hb') (hstraight a ha') (hstraight b hb') hne
    · exact habove _ (hobject a ha') _ (hobject b hb') hpath
    · exact habove _ (hobject b hb') _ (hobject a ha') hpath.symm
  obtain ⟨commands', u', h', hcommands, hc⟩ :=
    compilesAll_perm hg htools hperm ha hstraight ht hindependent (runs_compileAll_ok.mp h)
  exact ⟨commands', u', runs_compileAll_ok.mpr h', hcommands, hc⟩

/-! ### A source with two names -/

/-- A project that names one source in two ways. -/
def spelledTree : FileTree := .ofFiles (.ofSeconds 100) [
  ("main.ini", "[module]\ntarget=one\nsources=/a.c b.c\nsubmodules=sub", .ofSeconds 50),
  ("sub/module.ini", "[module]\ntarget=two\nsources=//a.c", .ofSeconds 50),
  ("a.c", "", .ofSeconds 50), ("b.c", "", .ofSeconds 50)]

/-- Its root module. -/
def spelledRoot : Module where
  path := .ofString "main.ini"
  directory := .here
  target := "one"
  sources := ["/a.c", "b.c"]
  submodules := ["sub"]

/-- The module below it. -/
def spelledLeaf : Module where
  path := .ofString "sub/module.ini"
  directory := .ofString "sub"
  target := "two"
  sources := ["//a.c"]

/-- Its graph. Of the three objects the first and the last are one file. -/
def spelledGraph : Graph :=
  (⟨{}, [⟨spelledRoot, []⟩, ⟨spelledLeaf, [spelledRoot]⟩]⟩ : Blueprint).graph

/-- Tools that find different headers in the source by its names. -/
def spelledScript : ToolScript where
  listings := [("/a.c", some "a.o: one.h\n"), ("//a.c", some "a.o: two.h\n")]
  now := .ofSeconds 200

/-- How it is built. -/
def spelledOptions : BuildOptions := { tools := spelledScript.toolchain }

/-- What compiling objects comes to. -/
def spelledRun (as : List CompileAction) : Run :=
  ((compileAll spelledOptions as).run.run (Rehearsal.start spelledTree)).2

set_option maxRecDepth 10000 in
theorem computed_spelledTree :
    (({} : Project).resolve spelledTree).2.toOption = some ⟨spelledGraph, {}⟩ ∧ spelledTree.WellFormed ∧
      spelledScript.Serves spelledGraph ∧ (∀ q ∈ spelledGraph.objects.keys, q.IsStraight) ∧
      (∀ x ∈ spelledGraph.objects.values, ∀ y ∈ spelledGraph.objects.values,
        ∀ l ∈ spelledTree.place x.path :: x.byproducts spelledTree .here,
          ¬l <:+ (spelledTree.place y.path).tail) := by
  refine ⟨?_, ?_, ?_, ?_, ?_⟩
  all_goals decide +kernel

theorem resolve_spelledTree : (({} : Project).resolve spelledTree).2 = .ok ⟨spelledGraph, {}⟩ :=
  toOption_eq_some.mp computed_spelledTree.1

theorem straight_spelledGraph : ∀ q ∈ spelledGraph.objects.keys, (Path.here / q).IsStraight := by
  simpa only [Path.here_join] using computed_spelledTree.2.2.2.1

theorem repeats_spelledGraph : spelledOptions.tools.Repeats spelledGraph .here := by
  obtain ⟨root, os, hresolves⟩ := Project.resolve_eq_ok.mp resolve_spelledTree
  exact computed_spelledTree.2.2.1.repeats_toolchain hresolves.coherent computed_spelledTree.2.2.2.1

theorem above_spelledGraph : ∀ x ∈ spelledGraph.objects.values, ∀ y ∈ spelledGraph.objects.values, x.path ≠ y.path →
    ∀ l ∈ footprint spelledTree .here x, l ∉ above (spelledTree.place (.here / y.path)) := by
  intro x hx y hy _ l hl
  rw [Path.here_join]
  refine computed_spelledTree.2.2.2.2 x hx y hy l ?_
  rcases hl with rfl | hl
  · rw [Path.here_join]
    exact List.mem_cons_self
  · exact List.mem_cons_of_mem _ hl

/-- Objects that are compiled without a failure leave what their run leaves. -/
theorem exists_runs_spelled (as : List CompileAction)
    (h : ((compileAll spelledOptions as).run.run (Rehearsal.start spelledTree)).1.toOption = some ()) :
    ∃ commands, RunM.Runs (compileAll spelledOptions as) spelledTree commands (.ok ()) (spelledRun as).tree :=
  have hruns := (total_compileAll spelledOptions as).of_run (Rehearsal.run_eq_ok h)
  hruns.imp fun _ h ↦ h.1

set_option maxRecDepth 10000 in
/-- Different objects of the project can be compiled in either order. -/
theorem compileAll_perm_of_spelled : ∃ commands t' commands' u',
    RunM.Runs (compileAll spelledOptions (spelledGraph.compileActions.values.take 2)) spelledTree commands
      (.ok ()) t' ∧
    RunM.Runs (compileAll spelledOptions (spelledGraph.compileActions.values.take 2).reverse) spelledTree
      commands' (.ok ()) u' ∧
    commands'.Perm commands ∧ t'.SameContents u' := by
  obtain ⟨commands, hruns⟩ :=
    exists_runs_spelled (spelledGraph.compileActions.values.take 2) (by decide +kernel)
  obtain ⟨commands', u', h', hcommands, hc⟩ := compileAll_perm (o := spelledOptions) resolve_spelledTree
    repeats_spelledGraph computed_spelledTree.2.1 straight_spelledGraph above_spelledGraph (by decide +kernel)
    (by decide +kernel) (List.reverse_perm _).symm hruns
  exact ⟨commands, _, commands', u', hruns, h', hcommands, hc⟩

set_option maxRecDepth 10000 in
/-- Of objects that are one file the one that is compiled last is left, though their paths differ. -/
theorem order_shows_in_one_file :
    (({} : Project).resolve spelledTree).2 = .ok ⟨spelledGraph, {}⟩ ∧ spelledTree.WellFormed ∧
    spelledOptions.tools.Repeats spelledGraph .here ∧
    (∀ q ∈ spelledGraph.objects.keys, (Path.here / q).IsStraight) ∧
    (∀ x ∈ spelledGraph.objects.values, ∀ y ∈ spelledGraph.objects.values, x.path ≠ y.path →
      ∀ l ∈ footprint spelledTree .here x, l ∉ above (spelledTree.place (.here / y.path))) ∧
    (∀ a ∈ spelledGraph.compileActions.values.eraseIdx 1,
      spelledGraph.compileActions.find? a.object.path = some a ∧
        (spelledGraph.judge spelledTree .here a.object).toOption.any (·.isStale)) ∧
    ((spelledGraph.compileActions.values.eraseIdx 1).map (·.object.path)).Nodup ∧
    ∃ commands t' commands' u',
      RunM.Runs (compileAll spelledOptions (spelledGraph.compileActions.values.eraseIdx 1)) spelledTree commands
        (.ok ()) t' ∧
      RunM.Runs (compileAll spelledOptions (spelledGraph.compileActions.values.eraseIdx 1).reverse) spelledTree
        commands' (.ok ()) u' ∧
      ¬t'.SameContents u' := by
  obtain ⟨commands, hruns⟩ :=
    exists_runs_spelled (spelledGraph.compileActions.values.eraseIdx 1) (by decide +kernel)
  obtain ⟨commands', hruns'⟩ :=
    exists_runs_spelled (spelledGraph.compileActions.values.eraseIdx 1).reverse (by decide +kernel)
  refine ⟨resolve_spelledTree, computed_spelledTree.2.1, repeats_spelledGraph, straight_spelledGraph,
    above_spelledGraph, by decide +kernel, by decide +kernel, commands, _, commands', _, hruns, hruns', ?_⟩
  intro hc
  have hdescriptor := hc.entry (spelledTree.place (.ofString "/a.P"))
  revert hdescriptor
  unfold AgreeAt
  decide +kernel

end ModuleBuild.Graph
