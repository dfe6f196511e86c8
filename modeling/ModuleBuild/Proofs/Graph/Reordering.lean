import ModuleBuild.Proofs.Graph.Faultless
import ModuleBuild.Proofs.Graph.Persistence
import ModuleBuild.Proofs.Module.Reordering

/-!
# The order of references

In which order descriptors list their submodules decides the order of what is in the graph, and nothing else
(`Project.resolve_reordered`). Blueprints of the same occurrences in different orders have the same contents, since what
each occurrence adds hangs on it alone (`Blueprint.Reordered.flatMap_perm`), and the same faults, if not the same first one.
Which record of an object comes last is decided by the order; its source and language are not, for an object has one source.
-/

namespace ModuleBuild

/-- Lists of the same members have them in another order if none is repeated. -/
theorem eraseDups_perm {α : Type} [DecidableEq α] {xs ys : List α} (h : xs.Perm ys) : xs.eraseDups.Perm ys.eraseDups :=
  (List.perm_ext_iff_of_nodup (nodup_eraseDups xs) (nodup_eraseDups ys)).mpr fun x ↦ by
    rw [List.mem_eraseDups, List.mem_eraseDups, h.mem_iff]

theorem Occurrence.target_withoutSubmodules (o : Occurrence) (targetDir : Path) :
    o.withoutSubmodules.target targetDir = o.target targetDir := by
  change ((o.module :: o.ancestors).map Module.withoutSubmodules).findSome? _ = _
  rw [List.findSome?_map]
  rfl

namespace Blueprint

/-- The blueprints have the same settings and the same occurrences in some order, but for the references of modules. -/
structure Reordered (b b' : Blueprint) : Prop where
  settings : b.settings = b'.settings
  occurrences : (b.occurrences.map Occurrence.withoutSubmodules).Perm (b'.occurrences.map Occurrence.withoutSubmodules)

/-- What the members of a target add, told by all occurrences. -/
theorem flatMap_members {α : Type} (b : Blueprint) (p : Path) (f : Module → List α) :
    (b.members p).flatMap f =
      b.occurrences.flatMap fun o ↦ if o.target b.settings.targetDir = some p then f o.module else [] := by
  obtain ⟨s, os⟩ := b
  unfold members
  dsimp only
  induction os with
  | nil => rfl
  | cons o os ih =>
    rw [List.filter_cons, List.flatMap_cons, ← ih]
    split <;> simp_all

namespace Reordered

variable {b b' : Blueprint}

theorem symm (h : b.Reordered b') : b'.Reordered b := ⟨h.settings.symm, h.occurrences.symm⟩

/-- What each occurrence adds, wherever it stands, comes together in another order. -/
theorem flatMap_perm {α : Type} (h : b.Reordered b') {f : Occurrence → List α}
    (hf : ∀ o, f o.withoutSubmodules = f o) : (b.occurrences.flatMap f).Perm (b'.occurrences.flatMap f) := by
  have hperm := h.occurrences.flatMap_right f
  rwa [List.flatMap_map, List.flatMap_map, funext hf] at hperm

theorem members_perm {α : Type} (h : b.Reordered b') (p : Path) {f : Module → List α}
    (hf : ∀ m, f m.withoutSubmodules = f m) : ((b.members p).flatMap f).Perm ((b'.members p).flatMap f) := by
  rw [flatMap_members, flatMap_members, h.settings]
  apply h.flatMap_perm
  intro o
  rw [o.target_withoutSubmodules]
  exact congrArg (fun xs ↦ if o.target b'.settings.targetDir = some p then xs else []) (hf o.module)

theorem records_perm (h : b.Reordered b') : b.records.Perm b'.records := by
  unfold records
  rw [h.settings]
  exact h.flatMap_perm fun _ ↦ rfl

theorem declared_perm (h : b.Reordered b') : b.declared.Perm b'.declared := by
  have hperm := h.flatMap_perm (f := fun o ↦ (o.module.declaredTarget b.settings.targetDir).toList) fun _ ↦ rfl
  unfold declared
  rw [← h.settings, List.filterMap_eq_flatMap_toList, List.filterMap_eq_flatMap_toList]
  exact hperm

/-- There are the same faults. -/
theorem faultless (h : b.Reordered b') (hb : b.Faultless) : b'.Faultless where
  declared := h.declared_perm.nodup_iff.mp hb.declared
  supported := by
    have hperm := h.flatMap_perm (f := fun o ↦ o.module.unsupported) fun _ ↦ rfl
    rw [List.flatMap_eq_nil_iff.mpr hb.supported] at hperm
    exact List.flatMap_eq_nil_iff.mp hperm.symm.eq_nil
  separate := hb.separate.mono fun _ hx ↦ (h.records_perm.map _).mem_iff.mpr hx

theorem objectsOf_perm (h : b.Reordered b') (p : Path) : (b.objectsOf p).Perm (b'.objectsOf p) := by
  unfold objectsOf
  rw [h.settings]
  exact eraseDups_perm (h.members_perm p fun _ ↦ rfl)

theorem prereqsOf_perm (h : b.Reordered b') (p : Path) : (b.prereqsOf p).Perm (b'.prereqsOf p) := by
  unfold prereqsOf
  rw [h.settings]
  exact eraseDups_perm (h.members_perm p fun _ ↦ rfl)

theorem libsOf_perm (h : b.Reordered b') (p : Path) : (b.libsOf p).Perm (b'.libsOf p) := by
  unfold libsOf
  split
  · exact .refl _
  · exact eraseDups_perm (h.members_perm p fun _ ↦ rfl)

theorem ldflagsOf_eq (h : b.Reordered b') (p : Path) : b.ldflagsOf p = b'.ldflagsOf p := by
  have hnames (b : Blueprint) : (∃ m ∈ b.members p, ∃ name ∈ m.prereqs, TargetKind.ofPath (.ofString name) = .archive) ↔
      ∃ name ∈ (b.members p).flatMap (·.prereqs), TargetKind.ofPath (.ofString name) = .archive := by
    simp only [List.mem_flatMap]
    constructor
    · rintro ⟨m, hm, name, hname, hkind⟩
      exact ⟨name, ⟨m, hm, hname⟩, hkind⟩
    · rintro ⟨name, ⟨m, hm, hname⟩, hkind⟩
      exact ⟨m, hm, name, hname, hkind⟩
  have hperm := h.members_perm p (f := (·.prereqs)) fun _ ↦ rfl
  unfold ldflagsOf
  simp only [hnames, hperm.mem_iff, h.settings]

theorem objects_keys_perm (h : b.Reordered b') : b.objects.keys.Perm b'.objects.keys := by
  rw [objects, objects, Table.keys_ofList, Table.keys_ofList]
  exact eraseDups_perm ((h.records_perm.map _).map _)

/-- An object has the same source, wherever it comes last, and so the same language. -/
theorem object_eq (h : b.Reordered b') (hb : b.Faultless) {p : Path} {x y : ObjectRecord}
    (hx : b.objects.find? p = some x) (hy : b'.objects.find? p = some y) :
    x.source = y.source ∧ x.language = y.language := by
  obtain ⟨hx, hxp⟩ := mem_records (Table.mem_of_find? hx)
  obtain ⟨hy, hyp⟩ := mem_records (Table.mem_of_find? hy)
  have hy := h.records_perm.mem_iff.mpr hy
  have hsource : x.source = y.source :=
    hb.separate (x.path, x.source) (List.mem_map_of_mem hx) (y.path, y.source) (List.mem_map_of_mem hy) (hxp.symm.trans hyp)
  have hlanguage {z : ObjectRecord} (hz : z ∈ b.records) : Language.ofSource? z.source = some z.language := by
    obtain ⟨o, -, hz⟩ := List.mem_flatMap.mp hz
    exact Module.language_of_mem_records hz
  refine ⟨hsource, Option.some.inj ?_⟩
  rw [← hlanguage hx, ← hlanguage hy, hsource]

theorem linker_eq (h : b.Reordered b') : b.linker = b'.linker := by
  unfold linker
  rw [h.settings, h.records_perm.any_eq]

end Reordered

end Blueprint

/-- The targets are the same, but for the order of what they are made from. -/
structure Target.Reordered (x y : Target) : Prop where
  kind : x.kind = y.kind
  objects : x.objects.Perm y.objects
  prereqs : x.prereqs.Perm y.prereqs
  libs : x.libs.Perm y.libs
  ldflags : x.ldflags.Perm y.ldflags

/-- The graphs have the same targets, the same objects of the same sources in the same languages, and the same linker, in
whatever order. -/
structure Graph.Reordered (g g' : Graph) : Prop where
  targets : g.targets.keys.Perm g'.targets.keys
  target : ∀ p x y, g.targets.find? p = some x → g'.targets.find? p = some y → x.Reordered y
  objects : g.objects.keys.Perm g'.objects.keys
  object : ∀ p x y, g.objects.find? p = some x → g'.objects.find? p = some y →
    x.source = y.source ∧ x.language = y.language
  linker : g.linker = g'.linker

/-- The graphs of the same occurrences in different orders are the same but for order. -/
theorem Blueprint.Reordered.graph {b b' : Blueprint} (h : b.Reordered b') (hb : b.Faultless)
    (headers headers' : Table Path (List Path)) :
    Graph.Reordered { b.graph with headers } { b'.graph with headers := headers' } where
  targets := by
    simp only [Blueprint.graph, Table.keys_tabulate]
    exact h.declared_perm
  target := by
    intro p x y hx hy
    simp only [Blueprint.graph, Table.find?_tabulate] at hx hy
    split at hx
    · split at hy
      · obtain rfl := Option.some.inj hx
        obtain rfl := Option.some.inj hy
        exact ⟨rfl, h.objectsOf_perm p, h.prereqsOf_perm p, h.libsOf_perm p, .of_eq (h.ldflagsOf_eq p)⟩
      · cases hy
    · cases hx
  objects := h.objects_keys_perm
  object := fun _ _ _ hx hy ↦ h.object_eq hb hx hy
  linker := h.linker_eq

/-! ### Resolution -/

namespace Listing

variable {t t' : FileTree} {project : Path} {x y : ObjectRecord}

/-- Bytes that describe a module are a text. -/
theorem readText_of_ofBytes {path : Path} {bytes : ByteArray} {m : Module} (h : Module.ofBytes path bytes = .ok m) :
    ∃ text, Text.Utf8.readText bytes = .ok text := by
  have hread : (Text.Utf8.readLines bytes).2 = none := by
    unfold Module.ofBytes at h
    dsimp only at h
    split at h
    · cases h
    · cases h
    · next hnone => exact hnone
  cases hdecode : Text.Utf8.decode bytes with
  | ok text =>
    rw [Text.Utf8.readText, hdecode]
    exact ⟨_, rfl⟩
  | error fault =>
    rw [Text.Utf8.readLines, hdecode] at hread
    dsimp only at hread
    split at hread
    · cases hread
    · cases hread

/-- The descriptor of an object can be read in both trees, if in one. -/
theorem headersOf_isOk_of_reordered (h : t.Reordered t') (hpath : x.path = y.path)
    (hx : ∃ hs?, headersOf t project x = .ok hs?) : ∃ hs?, headersOf t' project y = .ok hs? := by
  have hdependencies : x.dependencies = y.dependencies := by
    unfold ObjectRecord.dependencies ObjectRecord.sibling
    rw [hpath]
  obtain ⟨hs?, hx⟩ := hx
  cases hs? with
  | none =>
    obtain ⟨descriptor, hd, hfile⟩ := headersOf_eq_none.mp hx
    rw [hdependencies] at hd
    exact ⟨none, headersOf_eq_none.mpr ⟨descriptor, hd, by rw [h.sameShape.isFile_eq, hfile]⟩⟩
  | some hs =>
    obtain ⟨descriptor, bytes, m, text, hd, hstat, htext, -⟩ := headersOf_eq_some.mp hx
    rw [hdependencies] at hd
    obtain ⟨bytes', hread, hbytes⟩ := h.read_eq_ok (FileTree.read_eq_ok.mpr ⟨m, hstat⟩)
    obtain ⟨m', hstat'⟩ := FileTree.read_eq_ok.mp hread
    have htext' : ∃ text', Text.Utf8.readText bytes' = .ok text' := by
      rcases hbytes with rfl | ⟨_, _, -, hbytes', -⟩
      · exact ⟨text, htext⟩
      · exact readText_of_ofBytes hbytes'
    obtain ⟨text', htext'⟩ := htext'
    exact ⟨_, headersOf_eq_some.mpr ⟨descriptor, bytes', m', text', hd, hstat', htext', rfl⟩⟩

end Listing

namespace Project

variable {p : Project} {t t' : FileTree} {r r' : Resolved} {root : Module} {os : List Occurrence}

/-- What resolves in one tree resolves in the other, to the same but for order. -/
theorem Resolves.reordered (hr : p.Resolves t r root os) (h : t.Reordered t') :
    ∃ r', (p.resolve t').2 = .ok r' ∧ r.settings = r'.settings ∧ r.graph.Reordered r'.graph := by
  obtain ⟨hroot, hs⟩ := load_eq_ok.mp hr.load
  obtain ⟨root', hroot', hreordered⟩ := Module.load_eq_ok_of_reordered h hroot
  have hload' : p.load t' = .ok (root', r.settings) := by
    refine load_eq_ok.mpr ⟨hroot', ?_⟩
    rw [← hs, settingsOf, settingsOf, hreordered.project_eq]
  obtain ⟨os₁, hunfolds₁, hos₁⟩ := hr.unfolds.reordered rfl h hreordered .nil
  obtain ⟨os', hunfolds', hos'⟩ := hunfolds₁.perm hreordered.submodules
  have hblueprint : (⟨r.settings, ⟨root, []⟩ :: os⟩ : Blueprint).Reordered ⟨r.settings, ⟨root', []⟩ :: os'⟩ := by
    refine ⟨rfl, ?_⟩
    have hfirst : (⟨root, []⟩ : Occurrence).withoutSubmodules = (⟨root', []⟩ : Occurrence).withoutSubmodules := by
      rw [Occurrence.withoutSubmodules, Occurrence.withoutSubmodules, hreordered.withoutSubmodules]
    rw [List.map_cons, List.map_cons, hfirst]
    exact ((hos'.map _).trans hos₁).symm.cons _
  have hfaultless := Blueprint.fault?_eq_none.mp hr.noFault
  have hfault' := Blueprint.fault?_eq_none.mpr (hblueprint.faultless hfaultless)
  have hheaders : p.includeHeaders → ∀ y ∈ (⟨r.settings, ⟨root', []⟩ :: os'⟩ : Blueprint).objects.values,
      ∃ hs?, Listing.headersOf t' p.directory y = .ok hs? := by
    intro hinclude y hy
    obtain ⟨e, he, rfl⟩ := List.mem_map.mp hy
    have hrecord := hblueprint.records_perm.mem_iff.mpr (Blueprint.mem_records he).1
    obtain ⟨x, hx⟩ := Blueprint.exists_object hrecord
    have hxvalue : x ∈ r.graph.objects.values := by
      rw [hr.graph_eq]
      exact List.mem_map_of_mem (Table.mem_of_find? hx)
    have hfind := hr.find?_headers hxvalue
    rw [if_pos hinclude] at hfind
    obtain ⟨hs?, hheaders, -⟩ := hfind
    have hpath := (Blueprint.mem_records (Table.mem_of_find? hx)).2
    exact Listing.headersOf_isOk_of_reordered h hpath.symm ⟨hs?, hheaders⟩
  obtain ⟨g, said, hwith⟩ := exists_withHeaders _ hheaders
  have hr' : p.Resolves t' ⟨g, r.settings⟩ root' os' := ⟨hload', hunfolds', hfault', said, hwith⟩
  refine ⟨_, resolve_eq_ok.mpr ⟨root', os', hr'⟩, rfl, ?_⟩
  rw [hr.graph_eq, hr'.graph_eq]
  exact hblueprint.graph hfaultless _ _

/-- The order in which descriptors list their submodules does not matter, up to order: of two trees that hold the same but
for it, both resolve or none, with the same settings, and to graphs with the same targets, objects and linker. -/
theorem resolve_reordered (h : t.Reordered t') :
    ((∃ r, (p.resolve t).2 = .ok r) ↔ ∃ r', (p.resolve t').2 = .ok r') ∧
      ∀ r r', (p.resolve t).2 = .ok r → (p.resolve t').2 = .ok r' →
        r.settings = r'.settings ∧ r.graph.Reordered r'.graph := by
  constructor
  · constructor
    · rintro ⟨r, hr⟩
      obtain ⟨root, os, hresolves⟩ := resolve_eq_ok.mp hr
      obtain ⟨r', hr', -⟩ := hresolves.reordered h
      exact ⟨r', hr'⟩
    · rintro ⟨r', hr'⟩
      obtain ⟨root, os, hresolves⟩ := resolve_eq_ok.mp hr'
      obtain ⟨r, hr, -⟩ := hresolves.reordered h.symm
      exact ⟨r, hr⟩
  · intro r r' hr hr'
    obtain ⟨root, os, hresolves⟩ := resolve_eq_ok.mp hr
    obtain ⟨r₁, hr₁, hsame⟩ := hresolves.reordered h
    obtain rfl := Except.ok.inj (hr₁.symm.trans hr')
    exact hsame

/-- A descriptor that refers to two submodules. -/
def referring (references : String) : String := "[module]\ntarget=app\nsources=a.c\nsubmodules=" ++ references

/-- The module that it describes. -/
def referringModule (submodules : List String) : Module :=
  { path := .here, directory := .here, target := "app", sources := ["a.c"], submodules }

/-- A project with two submodules. -/
def forkedTree : FileTree := .ofFiles (.ofSeconds 100) [
  ("main.ini", referring "lib more", .ofSeconds 50),
  ("lib/module.ini", "[module]\nsources=b.cpp\nlibs=m", .ofSeconds 50),
  ("more/module.ini", "[module]\ntarget=libmore.a\nsources=c.c", .ofSeconds 50)]

/-- The project in which they are listed the other way round. -/
def swappedTree : FileTree :=
  forkedTree.put (Path.ofString "main.ini").segments.reverse (.file (referring "more lib").toUTF8 (.ofSeconds 60))

theorem resolve_reordered_of_swapped :
    forkedTree.Reordered swappedTree ∧ ∃ r r', (({} : Project).resolve forkedTree).2 = .ok r ∧
      (({} : Project).resolve swappedTree).2 = .ok r' ∧
      r.graph.objects.keys = ["build/a.o", "build/lib/b.o", "build/more/c.o"].map .ofString ∧
      r'.graph.objects.keys = ["build/a.o", "build/more/c.o", "build/lib/b.o"].map .ofString ∧
      r.settings = r'.settings ∧ r.graph.Reordered r'.graph := by
  have hfile : forkedTree.entry? (Path.ofString "main.ini").segments.reverse =
      some (.file (referring "lib more").toUTF8 (.ofSeconds 50)) := by
    decide +kernel
  have hbytes : Module.BytesReordered (referring "lib more").toUTF8 (referring "more lib").toUTF8 :=
    .inr ⟨referringModule ["lib", "more"], referringModule ["more", "lib"], by decide +kernel, by decide +kernel,
      rfl, .swap ..⟩
  have hreordered := FileTree.reordered_of_edited (.put hfile (.ofSeconds 60)) hbytes
  have hkeys : (({} : Project).resolve forkedTree).2.toOption.map (·.graph.objects.keys) =
      some (["build/a.o", "build/lib/b.o", "build/more/c.o"].map .ofString) := by
    decide +kernel
  have hkeys' : (({} : Project).resolve swappedTree).2.toOption.map (·.graph.objects.keys) =
      some (["build/a.o", "build/more/c.o", "build/lib/b.o"].map .ofString) := by
    decide +kernel
  obtain ⟨r, hr, hobjects⟩ := Option.map_eq_some_iff.mp hkeys
  obtain ⟨r', hr', hobjects'⟩ := Option.map_eq_some_iff.mp hkeys'
  have hresolve := toOption_eq_some.mp hr
  have hresolve' := toOption_eq_some.mp hr'
  exact ⟨hreordered, r, r', hresolve, hresolve', hobjects, hobjects',
    (resolve_reordered hreordered).2 r r' hresolve hresolve'⟩

end Project

end ModuleBuild
