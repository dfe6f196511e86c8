import ModuleBuild.Proofs.Graph.Coherence

/-!
# Resolved graphs are closed

The tables of a graph look each other's keys up: targets list objects, and orders of targets name actions. In the graph
of a blueprint every such key is there (`Blueprint.closed_graph`), and every object is compiled in the language that is
told by the source that its module lists (`Blueprint.typed_graph`). Languages are found twice, from the listed source
and from its path behind the directory of the module; both have one suffix (`Language.ofSource?_join`).
-/

namespace ModuleBuild

/-- A source that is in a known language is in the same language behind a directory. -/
theorem Language.ofSource?_join {directory source : Path} {l : Language} (h : ofSource? source = some l) :
    ofSource? (directory / source) = some l := by
  rw [ofSource?, Path.suffix_join (segments_ne_nil h)]
  exact h

namespace Graph

/-- Everything in a graph stands under its own path, and what its tables look up in each other is there. -/
structure Closed (g : Graph) : Prop where
  compileActions_keys : g.compileActions.keys = g.objects.keys
  objects_path : ∀ e ∈ g.objects.entries, e.1 = e.2.path
  compileActions_object : ∀ e ∈ g.compileActions.entries, (e.1, e.2.object) ∈ g.objects.entries
  targetActions_keys : g.targetActions.keys = g.targets.keys
  targets_path : ∀ e ∈ g.targets.entries, e.1 = e.2.path
  targetActions_target : ∀ e ∈ g.targetActions.entries, e.1 = e.2.target
  targets_objects : ∀ e ∈ g.targets.entries, ∀ p ∈ e.2.objects, p ∈ g.objects.keys
  targetActions_objects : ∀ e ∈ g.targetActions.entries, ∀ p ∈ e.2.objects, p ∈ g.objects.keys

end Graph

/-- What follows the flags in the command that compiles an object. -/
def Settings.afterFlags (s : Settings) (o : ObjectRecord) : List String :=
  s.includeFlags ++ o.includeFlags ++ s.defineFlags ++ o.defines ++ [toString o.source]

namespace Graph

/-- Objects are compiled in the languages of their sources: an object of a C source by the C compiler with the C flags
of its module and of the project, every other object by the C++ compiler with the C++ flags. -/
structure Typed (s : Settings) (g : Graph) : Prop where
  language : ∀ e ∈ g.objects.entries, Language.ofSource? e.2.source = some e.2.language
  command : ∀ e ∈ g.compileActions.entries, e.2.command =
    if e.2.object.language = .c then
      ⟨s.cc, ["-o", toString e.1, "-c", "-MD"] ++ e.2.object.cflags ++ s.cflags.asItems ++ s.afterFlags e.2.object⟩
    else
      ⟨s.cxx, ["-o", toString e.1, "-c", "-MD"] ++ e.2.object.cxxflags ++ s.cxxflags.asItems ++ s.afterFlags e.2.object⟩

end Graph

namespace Blueprint

variable (b : Blueprint) (headers : Table Path (List Path))

/-- The objects of a target are objects of the graph. -/
theorem mem_keys_of_mem_objectsOf {b : Blueprint} {p q : Path} (h : q ∈ b.objectsOf p) : q ∈ b.objects.keys := by
  obtain ⟨m, hm, hq⟩ := List.mem_flatMap.mp (List.mem_eraseDups.mp h)
  obtain ⟨o, ho, rfl⟩ := List.mem_map.mp hm
  obtain ⟨r, hr, rfl⟩ := List.mem_map.mp hq
  rw [objects, Table.keys_ofList, List.mem_eraseDups, List.map_map]
  exact List.mem_map_of_mem (List.mem_flatMap.mpr ⟨o, (List.mem_filter.mp ho).1, hr⟩)

/-- The action of a target makes it from its objects. -/
theorem targetAction_of_targetAt (linker : SettingValue) (p : Path) :
    (b.settings.targetAction linker (b.targetAt p)).target = p ∧
      (b.settings.targetAction linker (b.targetAt p)).objects = b.objectsOf p := by
  unfold Settings.targetAction
  split
  · exact ⟨rfl, rfl⟩
  · exact ⟨rfl, rfl⟩

/-- The graph of a blueprint is closed, whatever its headers. -/
theorem closed_graph : ({ b.graph with headers } : Graph).Closed where
  compileActions_keys := by
    simp only [graph, Table.keys, List.map_map]
    rfl
  objects_path := fun e he ↦ (mem_records he).2
  compileActions_object := by
    intro action haction
    obtain ⟨e, he, rfl⟩ := List.mem_map.mp haction
    exact he
  targetActions_keys := by simp only [graph, Table.keys_tabulate]
  targets_path := by
    intro e he
    obtain ⟨p, -, rfl⟩ := List.mem_map.mp he
    rfl
  targetActions_target := by
    intro e he
    obtain ⟨p, -, rfl⟩ := List.mem_map.mp he
    exact (b.targetAction_of_targetAt _ p).1.symm
  targets_objects := by
    intro e he q hq
    obtain ⟨p, -, rfl⟩ := List.mem_map.mp he
    exact mem_keys_of_mem_objectsOf hq
  targetActions_objects := by
    intro e he q hq
    obtain ⟨p, -, rfl⟩ := List.mem_map.mp he
    rw [(b.targetAction_of_targetAt _ p).2] at hq
    exact mem_keys_of_mem_objectsOf hq

/-- The graph of a blueprint compiles every object in its language, whatever the headers. -/
theorem typed_graph : ({ b.graph with headers } : Graph).Typed b.settings where
  language := by
    intro e he
    obtain ⟨o, -, hr⟩ := List.mem_flatMap.mp (mem_records he).1
    exact Module.language_of_mem_records hr
  command := by
    intro action haction
    obtain ⟨⟨p, o⟩, he, rfl⟩ := List.mem_map.mp haction
    obtain rfl : p = o.path := (mem_records he).2
    cases hl : o.language with
    | c => simp [compileAction, Settings.compileCommand, Settings.compiler, Settings.flags, ObjectRecord.flags,
        Settings.afterFlags, hl]
    | cxx => simp [compileAction, Settings.compileCommand, Settings.compiler, Settings.flags, ObjectRecord.flags,
        Settings.afterFlags, hl]

end Blueprint

end ModuleBuild
