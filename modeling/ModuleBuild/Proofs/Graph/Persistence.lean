import ModuleBuild.Proofs.Graph.Coherence
import ModuleBuild.Proofs.Module.Persistence

/-!
# Resolving again

When a file tree changes and no descriptor of a module is touched, the project resolves to the graph to
which it resolved, apart from headers (`Resolves.persists`, `Resolves.exists_again`). The headers of an
object stay where the files beside it do.
-/

namespace ModuleBuild

variable {t t' : FileTree} {written made : Set Location}

namespace Listing

variable {project : Path} {o : ObjectRecord}

/-- The descriptor of an object is a text, if there is one. -/
def IsReadable (t : FileTree) (project : Path) (o : ObjectRecord) : Prop :=
  ∀ q bytes modified, o.dependencies = .ok q → t.stat (project / q) = .ok (.file bytes modified) →
    ∃ text, Text.Utf8.readText bytes = .ok text

/-- Descriptors whose headers can be told are texts. -/
theorem isReadable_of_headersOf {hs? : Option (List Path)} (h : headersOf t project o = .ok hs?) :
    IsReadable t project o := by
  intro q bytes modified hq hstat
  cases hs? with
  | none =>
    obtain ⟨q', hq', hfile⟩ := headersOf_eq_none.mp h
    obtain rfl := Except.ok.inj (hq.symm.trans hq')
    simp [FileTree.isFile_eq_true.mpr ⟨bytes, modified, hstat⟩] at hfile
  | some hs =>
    obtain ⟨q', bytes', modified', text, hq', hstat', htext, -⟩ := headersOf_eq_some.mp h
    obtain rfl := Except.ok.inj (hq.symm.trans hq')
    obtain ⟨rfl, -⟩ := Entry.file.inj (Except.ok.inj (hstat.symm.trans hstat'))
    exact ⟨text, htext⟩

/-- The headers of an object can be told if its descriptor is a text and has no name that is too long. -/
theorem IsReadable.headersOf_isOk (h : IsReadable t project o) (ho : o.IsObject)
    (hn : ∀ q, o.dependencies = .ok q → (project / q).IsNameable) :
    ∃ hs?, headersOf t project o = .ok hs? := by
  obtain ⟨q, hq⟩ := ho.sibling_isOk .dependencies
  obtain ⟨b, hb⟩ := FileTree.isFile_isOk t (hn q hq)
  cases b with
  | false => exact ⟨none, headersOf_eq_none.mpr ⟨q, hq, hb⟩⟩
  | true =>
    obtain ⟨bytes, modified, hstat⟩ := FileTree.isFile_eq_true.mp hb
    obtain ⟨text, htext⟩ := h q bytes modified hq hstat
    exact ⟨_, headersOf_eq_some.mpr ⟨q, bytes, modified, text, hq, hstat, htext, rfl⟩⟩

variable (hev : t.Touches t' written made) (ht : t.WellFormed)
  (hs : (project / o.path).IsStraight)
  (hoff : ∀ q, o.dependencies = .ok q → t.place (project / q) ∉ written)

include hev ht hs hoff

/-- A descriptor that is not touched is the file that it was. -/
theorem stat_dependencies_iff {q : Path} (hq : o.dependencies = .ok q) {bytes : ByteArray}
    {m : Timestamp} :
    t'.stat (project / q) = .ok (.file bytes m) ↔ t.stat (project / q) = .ok (.file bytes m) :=
  hev.stat_eq_file_iff ht
    (ObjectRecord.isStraight_sibling hs hq Suffix.text_dependencies (by decide)) (hoff q hq)

theorem IsReadable.persists (h : IsReadable t project o) : IsReadable t' project o :=
  fun q bytes modified hq hstat ↦
    h q bytes modified hq ((stat_dependencies_iff hev ht hs hoff hq).mp hstat)

/-- An object whose descriptor is not touched has the headers that it had. -/
theorem headersOf_persists {hs? hs?' : Option (List Path)} (h : headersOf t project o = .ok hs?)
    (h' : headersOf t' project o = .ok hs?') : hs?' = hs? := by
  cases hs? with
  | some headers =>
    obtain ⟨q, bytes, m, text, hq, hstat, htext, rfl⟩ := headersOf_eq_some.mp h
    have hstat' := (stat_dependencies_iff hev ht hs hoff hq).mpr hstat
    have hsome := headersOf_eq_some.mpr ⟨q, bytes, m, text, hq, hstat', htext, rfl⟩
    exact Except.ok.inj (h'.symm.trans hsome)
  | none =>
    cases hs?' with
    | none => rfl
    | some headers =>
      obtain ⟨q, bytes, m, text, hq, hstat, htext, rfl⟩ := headersOf_eq_some.mp h'
      have hstat' := (stat_dependencies_iff hev ht hs hoff hq).mp hstat
      have hsome := headersOf_eq_some.mpr ⟨q, bytes, m, text, hq, hstat', htext, rfl⟩
      simp [h] at hsome

end Listing

namespace Project

variable {p : Project} {r r' : Resolved} {root : Module} {os : List Occurrence}

/-- The descriptors that are read when a project is resolved. -/
def descriptors (p : Project) (t : FileTree) : List Path :=
  match p.load t with
  | .error _ => []
  | .ok (root, s) => (root.walkFrom t p.directory s.targetDir).visits.map (·.module.path)

/-- The settings of a root module hang on its descriptor alone. -/
theorem load_persists {s : Settings} (h : p.load t = .ok (root, s))
    (hstat : ∀ e, t.stat (p.directory / root.path) = .ok e →
      t'.stat (p.directory / root.path) = .ok e) : p.load t' = .ok (root, s) := by
  obtain ⟨hload, hs⟩ := load_eq_ok.mp h
  obtain ⟨hroot, -⟩ := Module.path_of_load hload
  exact load_eq_ok.mpr ⟨Module.load_persists hload (hroot ▸ hstat), hs⟩

/-- Headers are taken in if the descriptors of all objects can be read. -/
theorem exists_withHeaders (b : Blueprint) (h : p.includeHeaders → ∀ o ∈ b.objects.values,
    ∃ hs?, Listing.headersOf t p.directory o = .ok hs?) : ∃ g said, p.withHeaders t b.graph = .ok (g, said) := by
  unfold Project.withHeaders
  split
  · next hinclude =>
    have hnodup : (b.objects.values.map (·.path)).Nodup := (b.coherent_graph .empty).objects_nodup
    obtain ⟨headers, n, hincludeAll, -⟩ := Listing.includeAll_eq_ok b.graph.headers hnodup (h hinclude)
    refine ⟨_, _, map_eq_ok.mpr ⟨n, ?_, rfl⟩⟩
    change (Listing.includeAll t p.directory b.graph.headers b.objects.values).2 = .ok n
    rw [hincludeAll]
  · exact ⟨_, _, rfl⟩

namespace Resolves

/-- The descriptors of a project are those of the modules to which it unfolds. -/
theorem descriptors_eq (h : p.Resolves t r root os) :
    p.descriptors t = (⟨root, []⟩ :: os).map (·.module.path) := by
  obtain ⟨os', ending, hunfolds, hvisited, -⟩ :=
    Module.walkFrom_unfolds t p.directory r.settings.targetDir root
  obtain ⟨rfl, -⟩ := h.unfolds.unique hunfolds
  unfold descriptors
  rw [h.load]
  exact hvisited.paths_eq

/-- Descriptors that are read are files. -/
theorem stat_descriptor (h : p.Resolves t r root os) {d : Path} (hd : d ∈ p.descriptors t) :
    ∃ bytes m, t.stat (p.directory / d) = .ok (.file bytes m) := by
  rw [h.descriptors_eq] at hd
  rcases List.mem_cons.mp hd with rfl | hd
  · obtain ⟨root', hload, hrest⟩ := bind_eq_ok.mp h.load
    obtain ⟨s, -, hrest⟩ := bind_eq_ok.mp hrest
    obtain ⟨rfl, -⟩ := Prod.mk.inj (Except.ok.inj hrest)
    obtain ⟨hpath, hfile⟩ := Module.path_of_load (mapError_eq_ok.mp hload)
    rwa [← hpath] at hfile
  · obtain ⟨o, ho, rfl⟩ := List.mem_map.mp hd
    exact (h.unfolds.isDescriptor o ho).2

/-- A project that resolves does so without headers. -/
theorem withoutHeaders (h : p.Resolves t r root os) :
    { p with includeHeaders := false }.Resolves t ⟨{ r.graph with headers := .empty }, r.settings⟩ root os where
  load := h.load
  unfolds := h.unfolds
  noFault := h.noFault
  withHeaders := ⟨[], by rw [h.graph_eq]; rfl⟩

/-- The headers of an object are those that its descriptor names. -/
theorem find?_headers (h : p.Resolves t r root os) {o : ObjectRecord} (ho : o ∈ r.graph.objects.values) :
    if p.includeHeaders then
      ∃ hs?, Listing.headersOf t p.directory o = .ok hs? ∧ r.graph.headers.find? o.path = hs?
    else r.graph.headers.find? o.path = none := by
  have hempty : (⟨r.settings, ⟨root, []⟩ :: os⟩ : Blueprint).graph.headers = .empty := rfl
  have hobjects : r.graph.objects = (⟨r.settings, ⟨root, []⟩ :: os⟩ : Blueprint).graph.objects := by
    rw [h.graph_eq]
  have hnodup := h.coherent.objects_nodup
  rw [hobjects] at ho hnodup
  obtain ⟨said, hw⟩ := h.withHeaders
  unfold Project.withHeaders at hw
  split
  · next hinclude =>
    rw [if_pos hinclude] at hw
    obtain ⟨n, hn, hg⟩ := map_eq_ok.mp hw
    obtain ⟨hg, -⟩ := Prod.mk.inj hg
    have hall := Listing.headersOf_isOk_of_includeAll hn
    obtain ⟨headers, k, hincludeAll, hfind, -⟩ := Listing.includeAll_eq_ok
      (⟨r.settings, ⟨root, []⟩ :: os⟩ : Blueprint).graph.headers hnodup hall
    obtain ⟨hs?, hhs⟩ := hall o ho
    refine ⟨hs?, hhs, ?_⟩
    have hfind := hfind o ho hs? hhs
    rw [hempty, Table.find?_empty, Option.or_none] at hfind
    rw [← hg]
    simp only [hincludeAll, hfind]
  · next hinclude =>
    rw [if_neg hinclude] at hw
    obtain ⟨hg, -⟩ := Prod.mk.inj (Except.ok.inj hw)
    rw [← hg, hempty]
    rfl

/-- An object whose descriptor is not touched has the headers that it had. -/
theorem find?_headers_persists (h : p.Resolves t r root os) (h' : p.Resolves t' r' root os)
    (hev : t.Touches t' written made) (ht : t.WellFormed) {x : ObjectRecord}
    (hs : (p.directory / x.path).IsStraight) (hx : x ∈ r.graph.objects.values)
    (hx' : x ∈ r'.graph.objects.values)
    (hoff : ∀ d, x.dependencies = .ok d → t.place (p.directory / d) ∉ written) :
    r'.graph.headers.find? x.path = r.graph.headers.find? x.path := by
  have hheaders := h.find?_headers hx
  have hheaders' := h'.find?_headers hx'
  split at hheaders
  · next hinclude =>
    rw [if_pos hinclude] at hheaders'
    obtain ⟨hs?, hhs, hget⟩ := hheaders
    obtain ⟨hs?', hhs', hget'⟩ := hheaders'
    rw [hget, hget']
    exact Listing.headersOf_persists hev ht hs hoff hhs hhs'
  · next hinclude =>
    rw [if_neg hinclude] at hheaders'
    rw [hheaders, hheaders']

variable (h : p.Resolves t r root os) (hev : t.Touches t' written made)
  (hdescriptors : ∀ d ∈ p.descriptors t, t.place (p.directory / d) ∉ written)

include h hev hdescriptors

private theorem load_unfolds_persist : p.load t' = .ok (root, r.settings) ∧
    Module.Unfolds t' p.directory root [] root.submodules os none := by
  rw [h.descriptors_eq] at hdescriptors
  refine ⟨load_persists h.load fun e he ↦ hev.stat_eq_ok ?_ he, h.unfolds.persists rfl hev ?_⟩
  · exact hdescriptors _ List.mem_cons_self
  · exact fun o ho ↦ hdescriptors _ (List.mem_map_of_mem (List.mem_cons_of_mem _ ho))

/-- A project whose descriptors are not touched resolves from the modules from which it resolved. -/
theorem persists (h' : (p.resolve t').2 = .ok r') :
    p.Resolves t' r' root os ∧ r'.settings = r.settings := by
  obtain ⟨root', os', h'⟩ := resolve_eq_ok.mp h'
  obtain ⟨hload, hunfolds⟩ := load_unfolds_persist h hev hdescriptors
  obtain ⟨rfl, hsettings⟩ := Prod.mk.inj (Except.ok.inj (hload.symm.trans h'.load))
  obtain ⟨rfl, -⟩ := hunfolds.unique h'.unfolds
  exact ⟨h', hsettings.symm⟩

/-- A project whose descriptors are not touched resolves again to the same graph, apart from headers. -/
theorem graph_eq_again (h' : (p.resolve t').2 = .ok r') :
    r'.graph = { r.graph with headers := r'.graph.headers } := by
  obtain ⟨h', hsettings⟩ := h.persists hev hdescriptors h'
  rw [h'.graph_eq, h.graph_eq, hsettings]

/-- A project whose descriptors are not touched resolves again if the headers of its objects can be
told. -/
theorem exists_again (hheaders : p.includeHeaders → ∀ o ∈ r.graph.objects.values,
    ∃ hs?, Listing.headersOf t' p.directory o = .ok hs?) : ∃ r', (p.resolve t').2 = .ok r' := by
  obtain ⟨hload, hunfolds⟩ := load_unfolds_persist h hev hdescriptors
  have hobjects : r.graph.objects = (⟨r.settings, ⟨root, []⟩ :: os⟩ : Blueprint).graph.objects := by
    rw [h.graph_eq]
  rw [hobjects] at hheaders
  obtain ⟨g, said, hwith⟩ := exists_withHeaders (⟨r.settings, ⟨root, []⟩ :: os⟩ : Blueprint) hheaders
  exact ⟨⟨g, r.settings⟩, resolve_eq_ok.mpr ⟨root, os, hload, hunfolds, h.noFault, said, hwith⟩⟩

end Resolves

end Project

end ModuleBuild
