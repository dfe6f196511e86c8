import ModuleBuild.Proofs.Build.Settled
import ModuleBuild.Proofs.Graph.Persistence

/-!
# What builds write

All that builds write lies in the territory of their graph: outputs, and the files beside objects. These
are different files for different objects (`KeptApart.footprints_disjoint`), and the descriptors among them
stay texts (`readable_of_compilesAll`, `readable_of_realizesAll`).
-/

namespace ModuleBuild.Graph

open FileTree

variable {g : Graph} {o : BuildOptions} {project : Path} {now : Timestamp} {t t' : FileTree}
  {as : List CompileAction} {realized : List Path} {p q : Path} {r r' : ObjectRecord}

/-- The locations that builds write: those of outputs and of the files beside objects. -/
def territory (g : Graph) (t : FileTree) (project : Path) : List Location :=
  (g.outputs.map fun p ↦ t.place (project / p)) ++
    g.objects.values.flatMap (·.byproducts t project)

/-- No source and no header is a file that builds write. -/
def InputsApart (g : Graph) (t : FileTree) (project : Path) : Prop :=
  ∀ o ∈ g.objects.values, ∀ q ∈ g.inputsOf o, t.place (project / q) ∉ g.territory t project

/-- Locations are the same if their segments are. -/
instance : LawfulBEq Location := inferInstance

instance (g : Graph) (t : FileTree) (project : Path) : Decidable (g.InputsApart t project) := by
  unfold InputsApart
  infer_instance

/-- Different objects of a graph have different files beside them. -/
theorem KeptApart.byproducts_disjoint (ht : g.KeptApart t project) (hg : g.Coherent)
    (hr : r ∈ g.objects.values) (hr' : r' ∈ g.objects.values) (hne : r.path ≠ r'.path) {l : Location}
    (hl : l ∈ r.byproducts t project) : l ∉ r'.byproducts t project := by
  have hfind := hg.find?_of_mem hr
  have hfind' := hg.find?_of_mem hr'
  have hout := mem_outputs_of_object hfind
  have hout' := mem_outputs_of_object hfind'
  exact ObjectRecord.byproducts_disjoint t (hg.object _ _ hfind).2.1 (hg.object _ _ hfind').2.1
    (ht.outputs.isStraight _ hout) (ht.outputs.isStraight _ hout')
    (fun heq ↦ hne (ht.outputs.eq_of_place_eq hout hout' heq)) hl

/-- Compiles of different objects write different files. -/
theorem KeptApart.footprints_disjoint (ht : g.KeptApart t project) (hg : g.Coherent)
    {as₁ as₂ : List CompileAction} (h : ∀ a ∈ as₁ ++ as₂, g.compileActions.find? a.object.path = some a)
    (hnodup : ((as₁ ++ as₂).map (·.object.path)).Nodup) {l : Location}
    (hl : l ∈ footprints t project as₂) : l ∉ footprints t project as₁ := by
  rintro ⟨a, ha, hla⟩
  obtain ⟨b, hb, hlb⟩ := hl
  have hobject := (hg.compileAction _ a (h a (List.mem_append_left _ ha))).2
  have hobject' := (hg.compileAction _ b (h b (List.mem_append_right _ hb))).2
  rw [List.map_append, List.nodup_append] at hnodup
  have hne : a.object.path ≠ b.object.path :=
    hnodup.2.2 _ (List.mem_map_of_mem ha) _ (List.mem_map_of_mem hb)
  rcases hla with rfl | hla
  · rcases hlb with heq | hlb
    · exact hne (ht.outputs.eq_of_place_eq (mem_outputs_of_object hobject)
        (mem_outputs_of_object hobject') heq)
    · exact ht.outputs.object_notBeside hg hobject hobject' hlb
  · rcases hlb with rfl | hlb
    · exact ht.outputs.object_notBeside hg hobject' hobject hla
    · exact ht.byproducts_disjoint hg (mem_values_of_object hobject) (mem_values_of_object hobject') hne
        hla hlb

namespace Halfway

/-- What is written lies in the territory. -/
theorem written_subset (h : g.Halfway t t' project now as realized) (hg : g.Coherent) :
    footprints t project as ∪ places t project realized ⊆ { l | l ∈ g.territory t project } := by
  rintro l (⟨a, ha, hl⟩ | ⟨p, hp, rfl⟩)
  · have hobject := (hg.compileAction _ a (h.action a ha)).2
    rcases hl with rfl | hl
    · exact List.mem_append_left _ (List.mem_map_of_mem (mem_outputs_of_object hobject))
    · exact List.mem_append_right _ (List.mem_flatMap.mpr ⟨_, mem_values_of_object hobject, hl⟩)
  · exact List.mem_append_left _
      (List.mem_map_of_mem (mem_outputs_of_target (h.isTarget p hp)))

/-- What is written is none of the files beside an object that is not compiled. -/
theorem byproducts_notMem (h : g.Halfway t t' project now as realized) (hg : g.Coherent)
    (ht : g.KeptApart t project) {r : ObjectRecord} (hr : g.objects.find? p = some r)
    (hcompiled : p ∉ as.map (·.object.path)) :
    ∀ l ∈ r.byproducts t project, l ∉ footprints t project as ∪ places t project realized := by
  rintro l hl (⟨a, ha, rfl | hl'⟩ | ⟨q, hq, rfl⟩)
  · have hobject := (hg.compileAction _ a (h.action a ha)).2
    exact ht.outputs.object_notBeside hg hobject hr hl
  · have hobject := (hg.compileAction _ a (h.action a ha)).2
    refine ht.byproducts_disjoint hg (mem_values_of_object hr) (mem_values_of_object hobject) ?_ hl hl'
    intro heq
    rw [(hg.object p r hr).1] at heq
    exact hcompiled (List.mem_map.mpr ⟨a, ha, heq.symm⟩)
  · exact ht.outputs.notBeside q (h.isTarget q hq) r (mem_values_of_object hr) hl

end Halfway

/-! ### Descriptors stay texts -/

/-- The descriptors of all objects are texts, where there are any. -/
def Readable (g : Graph) (t : FileTree) (project : Path) : Prop :=
  ∀ r ∈ g.objects.values, Listing.IsReadable t project r

/-- A compiler writes no descriptor. -/
theorem KeptApart.dependencies_notMem_writings (ht : g.KeptApart t project) (hg : g.Coherent)
    (hr : r ∈ g.objects.values) (hr' : r' ∈ g.objects.values) {d : Path} (hd : r.dependencies = .ok d) :
    t.place (project / d) ∉ writings t project r' := by
  have hmem : t.place (project / d) ∈ r.byproducts t project :=
    ObjectRecord.mem_byproducts.mpr ⟨d, .inl hd, rfl⟩
  rintro (heq | ⟨q, hq, heq⟩)
  · exact ht.outputs.object_notBeside hg (hg.find?_of_mem hr') (hg.find?_of_mem hr) (heq ▸ hmem)
  · have hmem' : t.place (project / q) ∈ r'.byproducts t project :=
      ObjectRecord.mem_byproducts.mpr ⟨q, .inr hq, rfl⟩
    by_cases hpath : r.path = r'.path
    · have hs := ht.outputs.isStraight _ (mem_outputs_of_object (hg.find?_of_mem hr))
      have hs' := ht.outputs.isStraight _ (mem_outputs_of_object (hg.find?_of_mem hr'))
      obtain ⟨s, -, hname, -⟩ := ObjectRecord.sibling_eq_ok hd
      obtain ⟨s', -, hname', -⟩ := ObjectRecord.sibling_eq_ok hq
      exact t.place_ne_of_suffix
        (ObjectRecord.isStraight_sibling hs hd Suffix.text_dependencies (by decide))
        (ObjectRecord.isStraight_sibling hs' hq Suffix.text_listing (by decide))
        ((Path.name?_join (Path.segments_ne_nil_of_name? hname)).trans hname)
        ((Path.name?_join (Path.segments_ne_nil_of_name? hname')).trans hname')
        (Segment.endsIn_withSuffix ..) (Segment.endsIn_withSuffix ..) Suffix.text_dependencies
        Suffix.text_listing (by decide) heq
    · exact ht.byproducts_disjoint hg hr hr' hpath hmem (heq ▸ hmem')

/-- A compile leaves descriptors texts. -/
theorem readable_of_compiles (hg : g.Coherent) (ht : g.KeptApart t o.project)
    (htools : o.tools.Obeys g o.project now) {t₁ : FileTree} (hw : t₁.WellFormed)
    (hcurrent : t₁.current = t.current) {a : CompileAction} {command : List String}
    (ha : g.compileActions.find? a.object.path = some a) (h : Compiles o a t₁ t' command)
    (hread : g.Readable t₁ o.project) : g.Readable t' o.project := by
  intro r hr
  have hobject := (hg.compileAction _ a ha).2
  have hmem := mem_values_of_object hobject
  have hsa := ht.outputs.isStraight _ (mem_outputs_of_object hobject)
  have hs := ht.outputs.isStraight _ (mem_outputs_of_object (hg.find?_of_mem hr))
  obtain ⟨s, hname⟩ := (hg.object _ _ hobject).2.1
  have hjoin := Path.segments_join_ne_nil (p := o.project) (Path.segments_ne_nil_of_name? hname)
  obtain ⟨t₂, hparent, t₃, response, d?, hwords, htool, hresponse, hfinalize⟩ := h
  obtain ⟨hev₂, -⟩ : t₁.Evolves t₂ now ∅ (above (t₁.place (o.project / a.object.path))) ∧ _ :=
    evolves_ensureParent hw hsa hjoin hparent
  have hread₂ := (hread r hr).persists hev₂.toTouches hw hs fun d _ ↦ Set.notMem_empty _
  have hw₂ := hev₂.wellFormed hw
  obtain ⟨hev₃, -⟩ := evolves_compiler hg htools ha hwords htool hresponse
  have hplace₂ (q : Path) : t₂.place q = t.place q := by
    rw [FileTree.place, FileTree.place, hev₂.current, hcurrent]
  have hwritings : writings t₂ o.project a.object = writings t o.project a.object := by
    simp only [writings, hplace₂]
  have hread₃ := hread₂.persists hev₃.toTouches hw₂ hs fun d hd ↦ by
    rw [hplace₂, hwritings]
    exact ht.dependencies_notMem_writings hg hr hmem hd
  have hw₃ := hev₃.wellFormed hw₂
  obtain ⟨hev', hleft⟩ :
      t₃.Evolves t' now { l | l ∈ a.object.byproducts t₃ o.project } ∅ ∧ _ :=
    Listing.evolves_finalize hw₃ hsa hfinalize
  by_cases hpath : r.path = a.object.path
  · -- the descriptor is the one that has been made, unless there was nothing to make it of
    have hra : r = a.object :=
      Option.some.inj ((hg.find?_of_mem hr).symm.trans (hpath ▸ hobject))
    rcases hleft with rfl | ⟨d, text, m, hd, hstat⟩
    · exact hread₃
    · intro q bytes m' hq hstat'
      obtain rfl := Except.ok.inj (hq.symm.trans (hra ▸ hd))
      obtain ⟨rfl, -⟩ := Entry.file.inj (Except.ok.inj (hstat'.symm.trans hstat))
      exact ⟨_, Listing.readText_toUTF8 _⟩
  · refine hread₃.persists hev'.toTouches hw₃ hs fun d hd ↦ ?_
    have hcurrent₃ := hev₃.current.trans (hev₂.current.trans hcurrent)
    rw [Set.mem_ofPred_eq, FileTree.place, hcurrent₃, byproducts_eq hcurrent₃]
    exact ht.byproducts_disjoint hg hr hmem hpath
      (ObjectRecord.mem_byproducts.mpr ⟨d, .inl hd, rfl⟩)

/-- Compiles leave descriptors texts. -/
theorem readable_of_compilesAll (hg : g.Coherent) (ht : g.KeptApart t o.project)
    (htools : o.tools.Obeys g o.project now) {t₁ : FileTree} (hw : t₁.WellFormed)
    (hcurrent : t₁.current = t.current) {commands : List (List String)}
    (ha : ∀ a ∈ as, g.compileActions.find? a.object.path = some a)
    (h : CompilesAll o as t₁ t' commands) (hread : g.Readable t₁ o.project) :
    g.Readable t' o.project := by
  induction h with
  | nil => exact hread
  | cons first rest ih =>
    next a as t₁ t₂ t' command commands =>
    have hobject := (hg.compileAction _ a (ha a List.mem_cons_self)).2
    obtain ⟨hev, -⟩ := evolves_compiles hg htools hw (ha a List.mem_cons_self)
      (ht.outputs.isStraight _ (mem_outputs_of_object hobject)) first
    exact ih (hev.wellFormed hw) (hev.current.trans hcurrent)
      (fun a' ha' ↦ ha a' (List.mem_cons_of_mem _ ha'))
      (readable_of_compiles hg ht htools hw hcurrent (ha a List.mem_cons_self) first hread)

/-- Making targets leaves descriptors texts. -/
theorem readable_of_realizesAll (hg : g.Coherent) (ht : g.KeptApart t o.project)
    (htools : o.tools.Obeys g o.project now) {t₁ : FileTree} (hw : t₁.WellFormed)
    (hcurrent : t₁.current = t.current) {result result' : BuildResult} {ps : List Path}
    {commands : List (List String)} (hps : ∀ p ∈ ps, p ∈ g.targets.keys)
    (h : RealizesAll g o result ps t₁ result' t' commands) (hread : g.Readable t₁ o.project) :
    g.Readable t' o.project := by
  intro r hr
  have hs := ht.outputs.isStraight _ (mem_outputs_of_object (hg.find?_of_mem hr))
  refine (hread r hr).persists (evolves_realizesAll hg ht htools h hw hcurrent hps).toTouches hw hs ?_
  rintro d hd ⟨p, hp, heq⟩
  rw [FileTree.place, hcurrent] at heq
  refine ht.outputs.notBeside p (hps p hp) r hr (heq ▸ ?_)
  exact ObjectRecord.mem_byproducts.mpr ⟨d, .inl hd, rfl⟩

/-! ### What a build leaves -/

namespace Builds

variable {goals order : List Path} {result : BuildResult} {compiled : FileTree}
  {commands compiles realizes : List (List String)} {as : List CompileAction}

section

variable (h : Builds g o goals t result t' commands order as compiled compiles realizes)
  (hg : g.Coherent)

include h

theorem mem_keys : ∀ p ∈ order, p ∈ g.targets.keys := fun p hp ↦
  (Table.contains_iff_mem_keys ..).mp ((readyOrder_of_targetOrder h.targetOrder).isTarget p hp)

include hg

theorem action : ∀ a ∈ as, g.compileActions.find? a.object.path = some a :=
  (h.judges.eq_filter hg).2.1

/-- No object is compiled twice. -/
theorem nodup : (as.map (·.object.path)).Nodup := h.judges.nodup hg

theorem objectsKnown : g.ObjectsKnown order := by
  intro p hp target htarget q hq
  obtain ⟨a, ha, -⟩ := (h.judges.eq_filter hg).2.2 q (mem_objectsOf hp htarget hq)
  exact ⟨_, (hg.compileAction q a ha).2⟩

variable (ht : g.KeptApart t o.project) (htools : o.tools.Obeys g o.project now)

include ht htools

theorem halfway_compiled : g.Halfway t compiled o.project now as [] :=
  .compilesAll hg ht htools (h.action hg) h.compilesAll

theorem halfway : g.Halfway t t' o.project now as result.realized :=
  (h.halfway_compiled hg ht htools).realizesAll hg ht htools h.mem_keys h.realizesAll

/-- After a build descriptors are texts if they were. -/
theorem readable (hread : g.Readable t o.project) : g.Readable t' o.project := by
  have hhalf := h.halfway_compiled hg ht htools
  exact readable_of_realizesAll hg ht htools (hhalf.wellFormed ht) hhalf.evolves.current h.mem_keys
    h.realizesAll (readable_of_compilesAll hg ht htools ht.wellFormed rfl (h.action hg) h.compilesAll
      hread)

/-- After a build its targets are settled. -/
theorem settled (hlater : t.NoLater now) :
    ∀ p ∈ order, ∀ a, g.targetActions.find? p = some a → Settled t' o.project a := by
  have hhalf := h.halfway_compiled hg ht htools
  exact settled_of_realizesAll hg ht htools h.realizesAll (hhalf.wellFormed ht) hhalf.evolves.current
    (hhalf.evolves.noLater hlater) (readyOrder_of_targetOrder h.targetOrder) (h.objectsKnown hg)

/-- After a build the objects that it compiled and the targets that it made are files of its time. -/
theorem stat_made :
    ∀ q ∈ as.map (·.object.path) ++ result.realized, ∃ bytes, t'.stat (o.project / q) = .ok (.file bytes now) := by
  have hhalf := h.halfway_compiled hg ht htools
  have hw := hhalf.wellFormed ht
  intro q hq
  rcases List.mem_append.mp hq with hq | hq
  · obtain ⟨a, ha, rfl⟩ := List.mem_map.mp hq
    obtain ⟨bytes, hstat⟩ := stat_of_compilesAll hg ht htools h.compilesAll ht.wellFormed rfl (h.action hg)
      (h.nodup hg) a ha
    exact ⟨bytes, stat_object_of_realizesAll hg ht htools h.realizesAll hw hhalf.evolves.current h.mem_keys
      (hg.compileAction _ a (h.action hg a ha)).2 hstat⟩
  · exact stat_of_realizesAll hg ht htools h.realizesAll hw hhalf.evolves.current
      (readyOrder_of_targetOrder h.targetOrder) q hq (List.not_mem_nil)

/-- After a build they bear its time. -/
theorem time?_made : ∀ q ∈ as.map (·.object.path) ++ result.realized, t'.time? (o.project / q) = some now := by
  intro q hq
  obtain ⟨bytes, hstat⟩ := h.stat_made hg ht htools q hq
  exact time?_eq_some.mpr ⟨_, hstat, rfl⟩

/-- After a build the objects that it compiled bear its time. -/
theorem time?_compiled : ∀ a ∈ as, t'.time? (o.project / a.object.path) = some now := fun a ha ↦
  h.time?_made hg ht htools _ (List.mem_append_left _ (List.mem_map.mpr ⟨a, ha, rfl⟩))

end

end Builds

end ModuleBuild.Graph
