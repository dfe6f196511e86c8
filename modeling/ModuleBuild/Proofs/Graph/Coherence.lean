import ModuleBuild.Proofs.Graph.Resolving
import ModuleBuild.Proofs.Listing.Descriptor

/-!
# Resolved graphs are coherent

What resolution yields, apart from headers, is the graph of a blueprint (`Resolves`). In such a graph every
action belongs to the object or target under whose path it is kept, objects bear the suffix of objects,
and sources are in known languages (`Coherent`).
-/

namespace ModuleBuild

/-- An object bears the name of its source, the suffix replaced. -/
theorem objectPath_name? {output source p : Path} (h : objectPath output source = .ok p) :
    ∃ s : Segment, p.name? = some (s.withSuffix .object) := by
  unfold objectPath Path.withSuffix? at h
  cases hs : source.name? with
  | none => simp [hs] at h
  | some s =>
    simp only [hs, Option.map_some, Except.ok.injEq] at h
    subst h
    refine ⟨s, ?_⟩
    rw [Path.name?_join (by simp), Path.name?, List.getLast?_concat]

/-- Every record of a module is one of an object. -/
theorem Module.isObject_of_mem_records {buildDir : Path} {m : Module} {r : ObjectRecord}
    (h : r ∈ m.records buildDir) : r.IsObject := by
  obtain ⟨source, -, language, object, -, hobject, rfl⟩ := exists_of_mem_records h
  exact objectPath_name? hobject

namespace Graph

/-- Actions belong to the objects and targets under whose paths they are kept. -/
structure Coherent (g : Graph) : Prop where
  compileAction : ∀ p a, g.compileActions.find? p = some a →
    a.object.path = p ∧ g.objects.find? p = some a.object
  object : ∀ p o, g.objects.find? p = some o →
    o.path = p ∧ o.IsObject ∧ Language.ofSource? o.source = some o.language
  objects_keys : g.objects.values.map (·.path) = g.objects.keys
  objects_nodup : (g.objects.values.map (·.path)).Nodup
  targetActions_keys : g.targetActions.keys = g.targets.keys
  targetAction : ∀ p a, g.targetActions.find? p = some a → a.target = p ∧
    ∃ t, g.targets.find? p = some t ∧ a.objects = t.objects ∧ a.prereqs = t.prereqs

/-- The objects of a coherent graph are found under their paths. -/
theorem Coherent.find?_of_mem {g : Graph} (hg : g.Coherent) {o : ObjectRecord}
    (h : o ∈ g.objects.values) : g.objects.find? o.path = some o := by
  have hnodup := hg.objects_nodup
  rw [hg.objects_keys] at hnodup
  obtain ⟨e, he, rfl⟩ := List.mem_map.mp h
  have hfind := Table.find?_of_mem hnodup he
  rw [(hg.object e.1 e.2 hfind).1]
  exact hfind

/-- Every target of a coherent graph has an action. -/
theorem Coherent.exists_targetAction {g : Graph} (hg : g.Coherent) {p : Path}
    (hp : g.targets.contains p) : ∃ a, g.targetActions.find? p = some a := by
  have hkey := (Table.contains_iff_mem_keys ..).mp hp
  rw [← hg.targetActions_keys] at hkey
  exact Option.isSome_iff_exists.mp ((Table.contains_iff_mem_keys ..).mpr hkey)

end Graph

namespace Blueprint

theorem objects_values (b : Blueprint) :
    b.objects.values.map (·.path) = b.objects.keys := by
  unfold Table.values Table.keys
  rw [List.map_map]
  refine List.map_congr_left fun e he ↦ ?_
  exact (mem_records he).2.symm

theorem objects_keys_nodup (b : Blueprint) : b.objects.keys.Nodup := by
  rw [objects, Table.keys_ofList]
  exact nodup_eraseDups _

/-- The graph of a blueprint is coherent, whatever its headers. -/
theorem coherent_graph (b : Blueprint) (headers : Table Path (List Path)) :
    ({ b.graph with headers } : Graph).Coherent where
  compileAction := by
    intro p a h
    simp only [graph, Table.find?_map, Option.map_eq_some_iff] at h
    obtain ⟨o, ho, rfl⟩ := h
    exact ⟨(mem_records (Table.mem_of_find? ho)).2.symm, ho⟩
  object := by
    intro p o h
    obtain ⟨hmem, hp⟩ := mem_records (Table.mem_of_find? h)
    obtain ⟨occurrence, -, hr⟩ := List.mem_flatMap.mp hmem
    exact ⟨hp.symm, Module.isObject_of_mem_records hr, Module.language_of_mem_records hr⟩
  objects_keys := b.objects_values
  objects_nodup := by
    change (b.objects.values.map (·.path)).Nodup
    rw [objects_values]
    exact b.objects_keys_nodup
  targetActions_keys := by
    simp only [graph, Table.keys_tabulate]
  targetAction := by
    intro p a h
    simp only [graph, Table.find?_tabulate] at h ⊢
    split at h
    · next hp =>
      obtain rfl := Option.some.inj h
      refine ⟨?_, b.targetAt p, by rw [if_pos hp], ?_, ?_⟩
      all_goals
        unfold Settings.targetAction
        split <;> rfl
    · simp at h

end Blueprint

namespace Project

/-- The settings in effect if a module is the root. -/
def settingsOf (p : Project) (root : Module) : Except Failure Settings :=
  ((root.project.elim p.settings p.settings.apply).override p.overrides).mapError .override

theorem load_eq_ok {p : Project} {t : FileTree} {root : Module} {s : Settings} :
    p.load t = .ok (root, s) ↔ Module.load t p.directory p.root = .ok root ∧ p.settingsOf root = .ok s := by
  unfold load settingsOf
  simp only [bind_eq_ok, mapError_eq_ok, pure_eq_ok, Except.ok.injEq, Prod.mk.injEq]
  constructor
  · rintro ⟨root, hroot, s, hs, rfl, rfl⟩
    exact ⟨hroot, hs⟩
  · rintro ⟨hroot, hs⟩
    exact ⟨root, hroot, s, hs, rfl, rfl⟩

/-- A project resolves: its root module and settings are loaded, the references of its modules unfold,
and the graph of the blueprint takes in headers if the project asks for them. -/
structure Resolves (p : Project) (t : FileTree) (r : Resolved) (root : Module)
    (os : List Occurrence) : Prop where
  load : p.load t = .ok (root, r.settings)
  unfolds : Module.Unfolds t p.directory root [] root.submodules os none
  noFault : (⟨r.settings, ⟨root, []⟩ :: os⟩ : Blueprint).fault? = none
  withHeaders : ∃ said,
    p.withHeaders t (⟨r.settings, ⟨root, []⟩ :: os⟩ : Blueprint).graph = .ok (r.graph, said)

theorem resolve_eq_ok {p : Project} {t : FileTree} {r : Resolved} :
    (p.resolve t).2 = .ok r ↔ ∃ root os, p.Resolves t r root os := by
  constructor
  · intro h
    cases hload : p.load t with
    | error f => cases (resolve_of_load hload).symm.trans h
    | ok loaded =>
      obtain ⟨root, s⟩ := loaded
      obtain ⟨os, ending, hunfolds, -⟩ := Module.walkFrom_unfolds t p.directory s.targetDir root
      rw [resolve_of_unfolds hload hunfolds] at h
      obtain ⟨g, hg, h⟩ := bind_eq_ok.mp h
      obtain ⟨hfault, rfl, rfl⟩ := Blueprint.graph?_eq_ok.mp hg
      obtain ⟨taken, hw, rfl⟩ := map_eq_ok.mp h
      exact ⟨root, os, hload, hunfolds, hfault, taken.2, hw⟩
  · rintro ⟨root, os, h⟩
    obtain ⟨said, hw⟩ := h.withHeaders
    have hg := Blueprint.graph?_eq_ok.mpr ⟨h.noFault, rfl, rfl⟩
    rw [resolve_of_unfolds h.load h.unfolds]
    exact bind_eq_ok.mpr ⟨_, hg, map_eq_ok.mpr ⟨_, hw, rfl⟩⟩

/-- The graph of a resolved project, apart from headers, is that of its blueprint. -/
theorem Resolves.graph_eq {p : Project} {t : FileTree} {r : Resolved} {root : Module}
    {os : List Occurrence} (h : p.Resolves t r root os) :
    r.graph = { (⟨r.settings, ⟨root, []⟩ :: os⟩ : Blueprint).graph with
      headers := r.graph.headers } := by
  obtain ⟨said, hw⟩ := h.withHeaders
  unfold Project.withHeaders at hw
  split at hw
  · simp only [Listing.includeHeaders, map_eq_ok, Prod.mk.injEq] at hw
    obtain ⟨n, -, hg, -⟩ := hw
    rw [← hg]
  · simp only [Except.ok.injEq, Prod.mk.injEq] at hw
    rw [← hw.1]

/-- A resolved graph is coherent. -/
theorem Resolves.coherent {p : Project} {t : FileTree} {r : Resolved} {root : Module}
    {os : List Occurrence} (h : p.Resolves t r root os) : r.graph.Coherent := by
  rw [h.graph_eq]
  exact Blueprint.coherent_graph _ _

end Project

end ModuleBuild
