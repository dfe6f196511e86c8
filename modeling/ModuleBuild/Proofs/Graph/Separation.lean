import ModuleBuild.Proofs.Graph.Coherence
import ModuleBuild.Proofs.Path.Normal
import ModuleBuild.Proofs.Source.Sharing

/-!
# Objects in files of their own

Where there is no fault, an object belongs to one source wherever modules list it (`Blueprint.separate_of_fault`), and a
graph has one record and one compile action for it. Objects are told apart by the spelling of their paths. Different
paths that agree up to the last double dot lead to different files, so that objects share none if they climb in the same
way (`Project.resolve_separates`); those that climb differently may (`Project.resolve_shares_object`).
-/

namespace ModuleBuild

namespace Blueprint

/-- Without a fault each object belongs to one source, wherever it is listed. -/
theorem separate_of_fault {b : Blueprint} (h : b.fault? = none) : Ownership.Separate (Ownership.claims b.records) := by
  apply induction_of_fault h
  case start => simp [Ownership.Separate, Ownership.claims, records]
  case push =>
    intro b o hs hfault
    have happend := Ownership.separate_of_clash (faultOf_eq_none.mp hfault).2.2 hs
    rwa [records_push, Ownership.claims, List.map_append]

/-- Every object that is listed is in the graph. -/
theorem exists_object {b : Blueprint} {r : ObjectRecord} (h : r ∈ b.records) :
    ∃ r', b.objects.find? r.path = some r' := by
  have hkey : r.path ∈ b.objects.keys := by
    rw [objects, Table.keys_ofList, List.mem_eraseDups, List.map_map]
    exact List.mem_map_of_mem h
  exact Option.isSome_iff_exists.mp ((Table.contains_iff_mem_keys ..).mpr hkey)

end Blueprint

namespace Project

variable {p : Project} {t : FileTree} {r : Resolved} {root : Module} {os : List Occurrence}

namespace Resolves

/-- Entries of a graph are told by the paths of their objects, and those by their normal forms if they climb in the same
way. -/
theorem entry_eq (hr : p.Resolves t r root os) {x y : Path × ObjectRecord} (hx : x ∈ r.graph.objects.entries)
    (hy : y ∈ r.graph.objects.entries) (h : x.1.ascent = y.1.ascent) (hn : x.1.normalize = y.1.normalize) : x = y := by
  have hnodup := hr.coherent.objects_nodup
  rw [hr.coherent.objects_keys] at hnodup
  exact List.inj_on_of_nodup_map hnodup hx hy (Path.eq_of_normalize_eq h hn)

/-- Every compile action is that of an entry. -/
theorem exists_entry (hr : p.Resolves t r root os) {x : Path × CompileAction}
    (hx : x ∈ r.graph.compileActions.entries) : ∃ e ∈ r.graph.objects.entries, e.1 = x.2.object.path ∧
      x = (e.1, (⟨r.settings, ⟨root, []⟩ :: os⟩ : Blueprint).compileAction e.2) := by
  rw [hr.graph_eq] at hx ⊢
  obtain ⟨e, he, rfl⟩ := List.mem_map.mp hx
  exact ⟨e, he, (Blueprint.mem_records he).2, rfl⟩

theorem action_eq (hr : p.Resolves t r root os) {x y : Path × CompileAction}
    (hx : x ∈ r.graph.compileActions.entries) (hy : y ∈ r.graph.compileActions.entries)
    (h : x.2.object.path.ascent = y.2.object.path.ascent)
    (hn : x.2.object.path.normalize = y.2.object.path.normalize) : x = y := by
  obtain ⟨e, he, hpath, hx⟩ := hr.exists_entry hx
  obtain ⟨e', he', hpath', hy⟩ := hr.exists_entry hy
  rw [← hpath, ← hpath'] at h hn
  rw [hx, hy, hr.entry_eq he he' h hn]

/-- One object has one source, wherever it is listed. -/
theorem source_eq (hr : p.Resolves t r root os) {x y : ObjectRecord}
    (hx : x ∈ (⟨r.settings, ⟨root, []⟩ :: os⟩ : Blueprint).records)
    (hy : y ∈ (⟨r.settings, ⟨root, []⟩ :: os⟩ : Blueprint).records) (h : x.path = y.path) : x.source = y.source :=
  Blueprint.separate_of_fault hr.noFault (x.path, x.source) (List.mem_map_of_mem hx)
    (y.path, y.source) (List.mem_map_of_mem hy) h

/-- Every object that is listed is compiled from the source for which it is listed. -/
theorem exists_action (hr : p.Resolves t r root os) {x : ObjectRecord}
    (hx : x ∈ (⟨r.settings, ⟨root, []⟩ :: os⟩ : Blueprint).records) :
    ∃ a, r.graph.compileActions.find? x.path = some a ∧ a.object.source = x.source := by
  -- the graph keeps the record of the last source that is listed for the object, which is the same source
  obtain ⟨x', hfind⟩ := Blueprint.exists_object hx
  obtain ⟨hx', hpath⟩ := Blueprint.mem_records (Table.mem_of_find? hfind)
  refine ⟨(⟨r.settings, ⟨root, []⟩ :: os⟩ : Blueprint).compileAction x', ?_, hr.source_eq hx' hx hpath.symm⟩
  rw [hr.graph_eq]
  simp only [Blueprint.graph, Table.find?_map, hfind, Option.map_some]

end Resolves

/-- Objects whose paths agree up to the last double dot, those without double dots among them, share no file. -/
structure Separates (p : Project) (t : FileTree) (r : Resolved) : Prop where
  /-- Objects with the same normal form are the same entry of the graph. -/
  objects : ∀ x ∈ r.graph.objects.entries, ∀ y ∈ r.graph.objects.entries,
    x.1.ascent = y.1.ascent → x.1.normalize = y.1.normalize → x = y
  /-- Compile actions whose objects have the same normal form are the same. -/
  actions : ∀ x ∈ r.graph.compileActions.entries, ∀ y ∈ r.graph.compileActions.entries,
    x.2.object.path.ascent = y.2.object.path.ascent →
    x.2.object.path.normalize = y.2.object.path.normalize → x = y
  /-- Wherever modules list a source, its object is compiled from it; and wherever they list sources whose objects have
  the same normal form, it is the same source. -/
  sources : ∃ root os, p.load t = .ok (root, r.settings) ∧
    Module.Unfolds t p.directory root [] root.submodules os none ∧
    ∀ o ∈ (⟨root, []⟩ :: os : List Occurrence), ∀ x ∈ o.module.records r.settings.buildDir,
      (∃ a, r.graph.compileActions.find? x.path = some a ∧ a.object.source = x.source) ∧
      ∀ o' ∈ (⟨root, []⟩ :: os : List Occurrence), ∀ y ∈ o'.module.records r.settings.buildDir,
        x.path.ascent = y.path.ascent → x.path.normalize = y.path.normalize → x.source = y.source

/-- Objects of a resolved project share no file, unless their paths climb in different ways. -/
theorem resolve_separates (h : (p.resolve t).2 = .ok r) : p.Separates t r := by
  obtain ⟨root, os, hr⟩ := resolve_eq_ok.mp h
  have hlisted {o : Occurrence} (ho : o ∈ (⟨root, []⟩ :: os : List Occurrence)) {x : ObjectRecord}
      (hx : x ∈ o.module.records r.settings.buildDir) :
      x ∈ (⟨r.settings, ⟨root, []⟩ :: os⟩ : Blueprint).records :=
    List.mem_flatMap.mpr ⟨o, ho, hx⟩
  constructor
  case objects => exact fun x hx y hy ↦ hr.entry_eq hx hy
  case actions => exact fun x hx y hy ↦ hr.action_eq hx hy
  case sources =>
    refine ⟨root, os, hr.load, hr.unfolds, fun o ho x hx ↦ ⟨hr.exists_action (hlisted ho hx), ?_⟩⟩
    intro o' ho' y hy hascent hnormal
    exact hr.source_eq (hlisted ho hx) (hlisted ho' hy) (Path.eq_of_normalize_eq hascent hnormal)

/-- A module with two sources, one of which climbs out of a directory. -/
def climbingTree : FileTree := .ofFiles (.ofSeconds 100) [
  ("main.ini", "[module]\ntarget=app\nsources=a.c sub/../a.cpp", .ofSeconds 50)]

/-- What climbing source files resolve to. -/
def climbing : Resolved :=
  ⟨(⟨{}, [⟨{ path := .ofString "main.ini", directory := .here, target := "app", sources := ["a.c", "sub/../a.cpp"] }, []⟩]⟩
    : Blueprint).graph, {}⟩

/-- Two sources whose objects are one file by two paths are taken for different objects. -/
theorem resolve_shares_object :
    (({} : Project).resolve climbingTree).2 = .ok climbing ∧
      ∃ x ∈ climbing.graph.objects.entries, ∃ y ∈ climbing.graph.objects.entries,
        x.1.normalize = y.1.normalize ∧ x ≠ y ∧ x.2.source.normalize ≠ y.2.source.normalize := by
  decide +kernel

/-- A module that is referred to twice, with a source of the directory above. -/
def repeatedTree : FileTree := .ofFiles (.ofSeconds 100) [
  ("main.ini", "[module]\ntarget=app\nsources=a.c\nsubmodules=lib lib", .ofSeconds 50),
  ("lib/module.ini", "[module]\nsources=../b.c c.cpp", .ofSeconds 50)]

theorem resolve_separates_of_repeated : ∃ r, (({} : Project).resolve repeatedTree).2 = .ok r ∧
    r.graph.objects.keys = [.ofString "build/a.o", .ofString "build/lib/../b.o", .ofString "build/lib/c.o"] ∧
    ({} : Project).Separates repeatedTree r := by
  have hkeys : (({} : Project).resolve repeatedTree).2.toOption.map (·.graph.objects.keys) =
      some [.ofString "build/a.o", .ofString "build/lib/../b.o", .ofString "build/lib/c.o"] := by
    decide +kernel
  obtain ⟨r, hr, hobjects⟩ := Option.map_eq_some_iff.mp hkeys
  have hresolve := toOption_eq_some.mp hr
  exact ⟨r, hresolve, hobjects, resolve_separates hresolve⟩

end Project

end ModuleBuild
