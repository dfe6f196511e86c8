import ModuleBuild.Proofs.Build.Layout

/-!
# In the midst of a build

What has become of the tree when some objects have been compiled and some targets made (`Halfway`): these
have been written, and what has not been made is as it was.
-/

namespace ModuleBuild.Graph

variable {g : Graph} {o : BuildOptions} {project : Path} {now : Timestamp} {t t' : FileTree}
  {as : List CompileAction} {realized : List Path} {p q : Path}

/-- The files of a graph are different files in a tree. -/
structure KeptApart (g : Graph) (t : FileTree) (project : Path) : Prop where
  wellFormed : t.WellFormed
  outputs : g.OutputsApart t project
  prerequisites : g.PrerequisitesApart t project

/-- The files of a graph are different files in a tree, and no directory stands in for one of them. -/
structure LaidOut (g : Graph) (t : FileTree) (project : Path) : Prop extends g.KeptApart t project where
  directories : g.DirectoriesThere t project

/-- Whatever is done to a tree, the files of a graph stay different files. -/
theorem KeptApart.of_touches {written made : Set Location} (ht : g.KeptApart t project)
    (h : t.Touches t' written made) : g.KeptApart t' project where
  wellFormed := h.wellFormed ht.wellFormed
  outputs := by
    refine ⟨ht.outputs.isStraight, ?_, fun p hp r hr ↦ ?_⟩
    · simp only [h.place_eq]
      exact ht.outputs.nodup
    · rw [h.place_eq, byproducts_eq h.current]
      exact ht.outputs.notBeside p hp r hr
  prerequisites := by
    refine ⟨ht.prerequisites.isStraight, fun p hp q hq heq ↦ ?_, fun p hp r hr ↦ ?_⟩
    · rw [h.place_eq, h.place_eq] at heq
      exact ht.prerequisites.eq_of_place_eq p hp q hq heq
    · rw [h.place_eq, byproducts_eq h.current]
      exact ht.prerequisites.notBeside p hp r hr

/-- The locations of paths of the project. -/
def places (t : FileTree) (project : Path) (ps : List Path) : Set Location :=
  { l | ∃ p ∈ ps, l = t.place (project / p) }

/-- The directories that outputs stand in. -/
def aboveOutputs (g : Graph) (t : FileTree) (project : Path) : Set Location :=
  { l | ∃ p ∈ g.outputs, l ∈ above (t.place (project / p)) }

/-- In the midst of a build some objects have been compiled and some targets made. -/
structure Halfway (g : Graph) (t t' : FileTree) (project : Path) (now : Timestamp)
    (as : List CompileAction) (realized : List Path) : Prop where
  action : ∀ a ∈ as, g.compileActions.find? a.object.path = some a
  isTarget : ∀ p ∈ realized, p ∈ g.targets.keys
  evolves : t.Evolves t' now (footprints t project as ∪ places t project realized)
    (g.aboveOutputs t project)

/-! ### What stays in the midst of a build -/

namespace Halfway

/-- At the start of a build nothing has been made. -/
theorem start (g : Graph) (t : FileTree) (project : Path) (now : Timestamp) :
    g.Halfway t t project now [] [] where
  action := by simp
  isTarget := by simp
  evolves := .refl ..

/-- A directory that is made is none at which a target or prerequisite is missing. -/
theorem entry?_ne_none (ht : g.LaidOut t project) (hp : p ∈ g.targets.keys ++ g.prerequisites) :
    t.place (project / p) ∈ g.aboveOutputs t project → t.entry? (t.place (project / p)) ≠ none := by
  rintro ⟨q, hq, habove⟩
  exact ht.directories p hp q hq habove

/-- A target that has not been made is not written. -/
theorem target_notMem (h : g.Halfway t t' project now as realized) (hg : g.Coherent)
    (ht : g.KeptApart t project) (hp : p ∈ g.targets.keys) (hnew : p ∉ realized) :
    t.place (project / p) ∉ footprints t project as ∪ places t project realized := by
  rintro (hmem | ⟨q, hq, heq⟩)
  · exact ht.outputs.target_notMem_footprints hg h.action hp hmem
  · have hq' := h.isTarget q hq
    exact hnew (ht.outputs.eq_of_place_eq (mem_outputs_of_target hp) (mem_outputs_of_target hq') heq ▸ hq)

/-- A prerequisite that has been neither compiled nor made is not written. -/
theorem prerequisite_notMem (h : g.Halfway t t' project now as realized) (hg : g.Coherent)
    (ht : g.KeptApart t project) (hp : p ∈ g.prerequisites) (hcompiled : p ∉ as.map (·.object.path))
    (hnew : p ∉ realized) :
    t.place (project / p) ∉ footprints t project as ∪ places t project realized := by
  rintro (hmem | ⟨q, hq, heq⟩)
  · exact ht.prerequisites.notMem_footprints hg h.action hp hcompiled hmem
  · have hq' := mem_outputs_of_target (h.isTarget q hq)
    exact hnew (ht.prerequisites.eq_of_place_eq p hp q hq' heq ▸ hq)

/-- An object that is not compiled is not written. -/
theorem object_notMem (h : g.Halfway t t' project now as realized) (hg : g.Coherent)
    (ht : g.KeptApart t project) {o : ObjectRecord} (hp : g.objects.find? p = some o)
    (hcompiled : p ∉ as.map (·.object.path)) :
    t.place (project / p) ∉ footprints t project as ∪ places t project realized := by
  rintro (hmem | ⟨q, hq, heq⟩)
  · exact ht.outputs.object_notMem_footprints hg h.action hp hcompiled hmem
  · have hq' := h.isTarget q hq
    have hpq := ht.outputs.eq_of_place_eq (mem_outputs_of_object hp) (mem_outputs_of_target hq') heq
    exact ht.outputs.ne hp hq' hpq

/-- A target that has not been made bears the time that it bore. -/
theorem time?_target (h : g.Halfway t t' project now as realized) (hg : g.Coherent)
    (ht : g.LaidOut t project) (hp : p ∈ g.targets.keys) (hnew : p ∉ realized) :
    t'.time? (project / p) = t.time? (project / p) :=
  h.evolves.time?_eq ht.wellFormed (ht.outputs.isStraight p (mem_outputs_of_target hp))
    (h.target_notMem hg ht.toKeptApart hp hnew) (entry?_ne_none ht (List.mem_append_left _ hp))

/-- A prerequisite that has been neither compiled nor made bears the time that it bore. -/
theorem time?_prerequisite (h : g.Halfway t t' project now as realized) (hg : g.Coherent)
    (ht : g.LaidOut t project) (hp : p ∈ g.prerequisites) (hcompiled : p ∉ as.map (·.object.path))
    (hnew : p ∉ realized) : t'.time? (project / p) = t.time? (project / p) :=
  h.evolves.time?_eq ht.wellFormed (ht.prerequisites.isStraight p hp)
    (h.prerequisite_notMem hg ht.toKeptApart hp hcompiled hnew)
    (entry?_ne_none ht (List.mem_append_right _ hp))

/-- An object that is there and is not compiled stays as it is. -/
theorem stat_object (h : g.Halfway t t' project now as realized) (hg : g.Coherent)
    (ht : g.KeptApart t project) {o : ObjectRecord} (hp : g.objects.find? p = some o)
    (hcompiled : p ∉ as.map (·.object.path)) {e : Entry} (he : t.stat (project / p) = .ok e) :
    t'.stat (project / p) = .ok e :=
  h.evolves.stat_eq_ok (h.object_notMem hg ht hp hcompiled) he

/-- The tree stays well-formed. -/
theorem wellFormed (h : g.Halfway t t' project now as realized) (ht : g.KeptApart t project) :
    t'.WellFormed :=
  h.evolves.wellFormed ht.wellFormed

/-- Seeing to the directory of an output leads on, and need not be done twice. -/
theorem ensureParent {t₁ : FileTree} (h : g.Halfway t t₁ project now as realized)
    (ht : g.KeptApart t project) (hp : p ∈ g.outputs) (hsegments : (project / p).segments ≠ [])
    (hparent : t₁.ensureDirectory (project / p).parent = (t', .ok ())) :
    g.Halfway t t' project now as realized ∧
      t₁.Evolves t' now ∅ (above (t₁.place (project / p))) ∧
      t'.ensureDirectory (project / p).parent = (t', .ok ()) := by
  obtain ⟨hev, m, hdir⟩ := evolves_ensureParent (h.wellFormed ht) (ht.outputs.isStraight p hp) hsegments
    hparent
  refine ⟨⟨h.action, h.isTarget, h.evolves.trans (hev.mono (Set.empty_subset _) fun l hl ↦ ?_)⟩, hev,
    FileTree.ensureDirectory_of_directory hdir⟩
  exact ⟨p, hp, h.evolves.place_eq _ ▸ hl⟩

/-- Compiling objects leads on. -/
theorem compilesAll (hg : g.Coherent) (ht : g.KeptApart t o.project)
    (htools : o.tools.Obeys g o.project now) {commands : List (List String)}
    (ha : ∀ a ∈ as, g.compileActions.find? a.object.path = some a)
    (h : CompilesAll o as t t' commands) : g.Halfway t t' o.project now as [] where
  action := ha
  isTarget := by simp
  evolves := by
    have hout (a : CompileAction) (hmem : a ∈ as) : a.object.path ∈ g.outputs :=
      mem_outputs_of_object (hg.compileAction _ a (ha a hmem)).2
    have hev := evolves_compilesAll hg htools ht.wellFormed ha
      (fun a hmem ↦ ht.outputs.isStraight _ (hout a hmem)) h
    refine hev.mono Set.subset_union_left ?_
    rintro l ⟨a, hmem, hl⟩
    exact ⟨a.object.path, hout a hmem, hl⟩

/-- Making a target leads on. -/
theorem realizes {t₁ : FileTree} (h : g.Halfway t t₁ o.project now as realized) (hg : g.Coherent)
    (ht : g.KeptApart t o.project) (htools : o.tools.Obeys g o.project now) {a : TargetAction}
    {command : List String} (hp : p ∈ g.targets.keys) (ha : g.targetActions.find? p = some a)
    (hr : Realizes o a t₁ t' command) :
    g.Halfway t t' o.project now as (realized ++ [p]) := by
  refine ⟨h.action, fun q hq ↦ ?_, ?_⟩
  · rcases List.mem_append.mp hq with hq | hq
    · exact h.isTarget q hq
    · exact List.mem_singleton.mp hq ▸ hp
  · have hout := mem_outputs_of_target hp
    obtain ⟨hev, -⟩ := evolves_realizes hg htools (h.wellFormed ht) ha (ht.outputs.isStraight p hout) hr
    rw [h.evolves.place_eq] at hev
    refine (h.evolves.mono ?_ (Set.Subset.refl _)).trans (hev.mono ?_ ?_)
    · refine Set.union_subset_union_right _ ?_
      rintro l ⟨q, hq, hl⟩
      exact ⟨q, List.mem_append_left _ hq, hl⟩
    · rintro l rfl
      exact .inr ⟨p, by simp, rfl⟩
    · exact fun l hl ↦ ⟨p, hout, hl⟩

/-- Going through targets leads on. -/
theorem realizesAll {t₁ : FileTree} {result result' : BuildResult} {ps : List Path}
    {commands : List (List String)} (h : g.Halfway t t₁ o.project now as result.realized)
    (hg : g.Coherent) (ht : g.KeptApart t o.project) (htools : o.tools.Obeys g o.project now)
    (hps : ∀ p ∈ ps, p ∈ g.targets.keys)
    (hr : RealizesAll g o result ps t₁ result' t' commands) :
    g.Halfway t t' o.project now as result'.realized := by
  induction hr with
  | done => exact h
  | made action isStale first rest ih =>
    exact ih (h.realizes hg ht htools (hps _ List.mem_cons_self) action first) fun q hq ↦
      hps q (List.mem_cons_of_mem _ hq)
  | kept action isFresh rest ih => exact ih h fun q hq ↦ hps q (List.mem_cons_of_mem _ hq)

end Halfway

end ModuleBuild.Graph
