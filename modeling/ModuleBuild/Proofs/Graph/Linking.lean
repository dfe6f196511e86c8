import ModuleBuild.Proofs.Graph.Separation

/-!
# One linker for a project

The linker is chosen by the languages that have been noted while modules were visited, and the graph keeps one record
for each object, the last that was made. Since an object has one source, and the suffix of its source tells the
language, all records of an object are in one language (`Blueprint.language_eq`); so nothing that was noted is missing
among the objects that are kept, and the linker can be told by these (`Project.resolve_links`).
-/

namespace ModuleBuild

namespace Blueprint

variable {b : Blueprint}

/-- A record tells the language of its source. -/
theorem language_of_mem_records {r : ObjectRecord} (h : r ∈ b.records) :
    Language.ofSource? r.source = some r.language := by
  obtain ⟨o, -, hr⟩ := List.mem_flatMap.mp h
  exact Module.language_of_mem_records hr

/-- Without a fault all records of an object are in one language. -/
theorem language_eq (hfault : b.fault? = none) {r r' : ObjectRecord} (hr : r ∈ b.records) (hr' : r' ∈ b.records)
    (h : r.path = r'.path) : r.language = r'.language := by
  have hsource : r.source = r'.source := separate_of_fault hfault (r.path, r.source) (List.mem_map_of_mem hr)
    (r'.path, r'.source) (List.mem_map_of_mem hr') h
  have hlanguage := language_of_mem_records hr
  rw [hsource, language_of_mem_records hr'] at hlanguage
  exact (Option.some.inj hlanguage).symm

/-- The languages of all records are those of the records that are kept. -/
theorem exists_language_iff (hfault : b.fault? = none) (l : Language) :
    (∃ r ∈ b.records, r.language = l) ↔ ∃ r ∈ b.objects.values, r.language = l := by
  constructor
  · rintro ⟨r, hr, rfl⟩
    -- a later record may have come in the place of this one
    obtain ⟨r', hfind⟩ := exists_object hr
    have hentry := Table.mem_of_find? hfind
    obtain ⟨hr', hpath⟩ := mem_records hentry
    exact ⟨r', List.mem_map_of_mem hentry, language_eq hfault hr' hr hpath.symm⟩
  · rintro ⟨r, hr, rfl⟩
    obtain ⟨e, he, rfl⟩ := List.mem_map.mp hr
    exact ⟨e.2, (mem_records he).1, rfl⟩

end Blueprint

namespace Settings

/-- A linker that is set and not empty is taken, else the C++ compiler if there is C++, else the C compiler. -/
theorem linker_eq (s : Settings) (hasCxx : Bool) :
    s.linker hasCxx = (s.lnk.filter (!·.isEmpty)).getD (if hasCxx then s.cxx else s.cc) := by
  unfold linker
  cases s.lnk with
  | none => rfl
  | some l => cases h : l.isEmpty <;> simp [Option.filter, h]

/-- The program that makes an executable is the linker. -/
theorem program_targetAction (s : Settings) (linker : SettingValue) {t : Target} (h : t.kind = .executable) :
    (s.targetAction linker t).command.program = linker := by
  rw [targetAction, h]
  rfl

end Settings

namespace Project

variable {p : Project} {t : FileTree} {r : Resolved}

/-- How a resolved project is linked. -/
structure Links (p : Project) (t : FileTree) (r : Resolved) : Prop where
  /-- The walk ends with the objects of the graph, and with their languages noted. -/
  noted : ∃ root a, p.load t = .ok (root, r.settings) ∧
    ((Assembly.start r.settings).follow (root.walkFrom t p.directory r.settings.targetDir)).2 = .ok a ∧
    a.objects = r.graph.objects ∧ ∀ l, l ∈ a.ownership.languages ↔ ∃ x ∈ r.graph.objects.values, x.language = l
  /-- The linker is the one that is set; if none is, or an empty one, the C++ compiler if one of the objects is C++, and
  the C compiler otherwise. -/
  linker : r.graph.linker = (r.settings.lnk.filter (!·.isEmpty)).getD
    (if ∃ x ∈ r.graph.objects.values, x.language = .cxx then r.settings.cxx else r.settings.cc)
  /-- Every executable has an action, whose command starts with the linker. -/
  actions : ∀ q target, r.graph.targets.find? q = some target → target.kind = .executable →
    ∃ a, r.graph.targetActions.find? q = some a ∧ a.command.program = r.graph.linker

/-- The linker of a resolved project can be told by the objects of its graph. -/
theorem resolve_links (h : (p.resolve t).2 = .ok r) : p.Links t r := by
  obtain ⟨root, os, hr⟩ := resolve_eq_ok.mp h
  have hobjects : r.graph.objects = (⟨r.settings, ⟨root, []⟩ :: os⟩ : Blueprint).objects := by rw [hr.graph_eq]; rfl
  have hlinker : r.graph.linker = (⟨r.settings, ⟨root, []⟩ :: os⟩ : Blueprint).linker := by rw [hr.graph_eq]; rfl
  constructor
  case noted =>
    obtain ⟨os', ending, hunfolds, -, hfollow⟩ := follow_walkFrom t p.directory root r.settings
    obtain ⟨rfl, rfl⟩ := hunfolds.unique hr.unfolds
    rw [hr.noFault] at hfollow
    obtain ⟨a, hassembled, hfollows⟩ := hfollow
    refine ⟨root, a, hr.load, hassembled, hfollows.objects.trans hobjects.symm, fun l ↦ ?_⟩
    rw [hfollows.languages, List.mem_map, Blueprint.exists_language_iff hr.noFault, hobjects]
  case linker =>
    rw [hlinker, Blueprint.linker, Settings.linker_eq, hobjects]
    simp only [List.any_eq_true, decide_eq_true_eq, Blueprint.exists_language_iff hr.noFault]
  case actions =>
    intro q target htarget hkind
    rw [hlinker]
    rw [hr.graph_eq] at htarget ⊢
    simp only [Blueprint.graph, Table.find?_tabulate] at htarget ⊢
    split at htarget
    · next hq =>
      obtain rfl := Option.some.inj htarget
      exact ⟨_, if_pos hq, Settings.program_targetAction _ _ hkind⟩
    · simp at htarget

/-- A C++ source that belongs to no target, and a module that is referred to twice. -/
def unattachedTree : FileTree := .ofFiles (.ofSeconds 100) [
  ("main.ini", "[module]\nsources=a.cc\nsubmodules=app lib lib", .ofSeconds 50),
  ("app/module.ini", "[module]\ntarget=app\nsources=b.c", .ofSeconds 50),
  ("lib/module.ini", "[module]\nsources=c.c", .ofSeconds 50)]

/-- The executable is linked by the C++ compiler, though none of its objects is C++. -/
theorem resolve_links_of_unattached : ∃ r, (({} : Project).resolve unattachedTree).2 = .ok r ∧
    r.graph.objects.values.map (·.language) = [.cxx, .c, .c] ∧ r.graph.linker = .text "g++" ∧
    ({} : Project).Links unattachedTree r := by
  have hcomputed : (({} : Project).resolve unattachedTree).2.toOption.map
      (fun r ↦ (r.graph.objects.values.map (·.language), r.graph.linker)) =
        some ([.cxx, .c, .c], .text "g++") := by
    decide +kernel
  obtain ⟨r, hr, hgraph⟩ := Option.map_eq_some_iff.mp hcomputed
  obtain ⟨hlanguages, hlinker⟩ := Prod.mk.inj hgraph
  have hresolve := toOption_eq_some.mp hr
  exact ⟨r, hresolve, hlanguages, hlinker, resolve_links hresolve⟩

end Project

end ModuleBuild
