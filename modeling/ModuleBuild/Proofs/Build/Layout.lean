import ModuleBuild.Proofs.Build.Effects
import ModuleBuild.Proofs.Build.Ordering
import ModuleBuild.Proofs.Build.Staleness

/-!
# Where the files of a graph stand

What makes the files of a graph different files: no path among them holds a double dot, outputs stand at
different locations, and no target or prerequisite is one of the files kept beside objects. With these
conditions a build leaves alone what it does not name as an output.
-/

namespace ModuleBuild.Graph

/-- The files that a graph is for: its objects and its targets. -/
def outputs (g : Graph) : List Path := g.objects.keys ++ g.targets.keys

/-- The prerequisites of all targets. -/
def prerequisites (g : Graph) : List Path := g.targets.values.flatMap (·.prereqs)

/-- Outputs are different files, and no target is one of the files beside an object. -/
structure OutputsApart (g : Graph) (t : FileTree) (project : Path) : Prop where
  isStraight : ∀ p ∈ g.outputs, (project / p).IsStraight
  nodup : (g.outputs.map fun p ↦ t.place (project / p)).Nodup
  notBeside : ∀ p ∈ g.targets.keys, ∀ o ∈ g.objects.values,
    t.place (project / p) ∉ o.byproducts t project

/-- A prerequisite that is an output bears its path, and none is one of the files beside an object. -/
structure PrerequisitesApart (g : Graph) (t : FileTree) (project : Path) : Prop where
  isStraight : ∀ p ∈ g.prerequisites, (project / p).IsStraight
  eq_of_place_eq : ∀ p ∈ g.prerequisites, ∀ q ∈ g.outputs,
    t.place (project / p) = t.place (project / q) → p = q
  notBeside : ∀ p ∈ g.prerequisites, ∀ o ∈ g.objects.values,
    t.place (project / p) ∉ o.byproducts t project

/-- A target or prerequisite that is a directory which outputs stand in is there. -/
def DirectoriesThere (g : Graph) (t : FileTree) (project : Path) : Prop :=
  ∀ p ∈ g.targets.keys ++ g.prerequisites, ∀ q ∈ g.outputs,
    t.place (project / p) <:+ (t.place (project / q)).tail → t.entry? (t.place (project / p)) ≠ none

variable {g : Graph} {t t' : FileTree} {project : Path} {p q : Path}

theorem mem_outputs_of_object {o : ObjectRecord} (h : g.objects.find? p = some o) :
    p ∈ g.outputs :=
  List.mem_append_left _ (Table.mem_keys_of_find? h)

theorem mem_values_of_object {o : ObjectRecord} (h : g.objects.find? p = some o) :
    o ∈ g.objects.values :=
  List.mem_map.mpr ⟨_, Table.mem_of_find? h, rfl⟩

theorem mem_outputs_of_target (h : p ∈ g.targets.keys) : p ∈ g.outputs := List.mem_append_right _ h

theorem Coherent.mem_keys_of_targetAction (hg : g.Coherent) {a : TargetAction}
    (ha : g.targetActions.find? p = some a) : p ∈ g.targets.keys := by
  obtain ⟨-, target, htarget, -, -⟩ := hg.targetAction _ a ha
  exact Table.mem_keys_of_find? htarget

theorem mem_prerequisites {t : Target} (h : g.targets.find? p = some t) (hq : q ∈ t.prereqs) :
    q ∈ g.prerequisites :=
  List.mem_flatMap.mpr ⟨t, List.mem_map.mpr ⟨_, Table.mem_of_find? h, rfl⟩, hq⟩

namespace OutputsApart

/-- Different outputs stand at different locations. -/
theorem eq_of_place_eq (h : g.OutputsApart t project) (hp : p ∈ g.outputs) (hq : q ∈ g.outputs)
    (heq : t.place (project / p) = t.place (project / q)) : p = q :=
  List.inj_on_of_nodup_map h.nodup hp hq heq

/-- No object is a target. -/
theorem ne (h : g.OutputsApart t project) {o : ObjectRecord} (hp : g.objects.find? p = some o)
    (hq : q ∈ g.targets.keys) : p ≠ q := by
  rintro rfl
  have hnodup := h.nodup
  rw [outputs, List.map_append, List.nodup_append] at hnodup
  exact hnodup.2.2 _ (List.mem_map_of_mem (Table.mem_keys_of_find? hp)) _ (List.mem_map_of_mem hq) rfl

/-- No object is one of the files beside an object. -/
theorem object_notBeside (h : g.OutputsApart t project) (hg : g.Coherent) {o o' : ObjectRecord}
    (hp : g.objects.find? p = some o) {q : Path} (hq : g.objects.find? q = some o') :
    t.place (project / p) ∉ o'.byproducts t project := by
  obtain ⟨rfl, hisObject, -⟩ := hg.object p o hp
  obtain ⟨rfl, -, -⟩ := hg.object q o' hq
  exact hisObject.place_notMem_byproducts t (h.isStraight _ (mem_outputs_of_object hp))
    (h.isStraight _ (mem_outputs_of_object hq))

/-- An object that is not compiled is not touched by compiles. -/
theorem object_notMem_footprints (h : g.OutputsApart t project) (hg : g.Coherent)
    {as : List CompileAction} (ha : ∀ a ∈ as, g.compileActions.find? a.object.path = some a)
    {o : ObjectRecord} (hp : g.objects.find? p = some o) (hnot : p ∉ as.map (·.object.path)) :
    t.place (project / p) ∉ footprints t project as := by
  rintro ⟨a, hmem, hplace | hbeside⟩
  · have hobject := (hg.compileAction _ a (ha a hmem)).2
    have heq := h.eq_of_place_eq (mem_outputs_of_object hp) (mem_outputs_of_object hobject) hplace
    exact hnot (List.mem_map.mpr ⟨a, hmem, heq.symm⟩)
  · exact h.object_notBeside hg hp (hg.compileAction _ a (ha a hmem)).2 hbeside

/-- A target is not touched by compiles. -/
theorem target_notMem_footprints (h : g.OutputsApart t project) (hg : g.Coherent)
    {as : List CompileAction} (ha : ∀ a ∈ as, g.compileActions.find? a.object.path = some a)
    (hp : p ∈ g.targets.keys) : t.place (project / p) ∉ footprints t project as := by
  rintro ⟨a, hmem, hplace | hbeside⟩
  · have hobject := (hg.compileAction _ a (ha a hmem)).2
    have heq := h.eq_of_place_eq (mem_outputs_of_target hp) (mem_outputs_of_object hobject) hplace
    exact h.ne hobject hp heq.symm
  · exact h.notBeside p hp _ (mem_values_of_object (hg.compileAction _ a (ha a hmem)).2) hbeside

end OutputsApart

/-- A prerequisite that is not compiled is not touched by compiles. -/
theorem PrerequisitesApart.notMem_footprints (h : g.PrerequisitesApart t project) (hg : g.Coherent)
    {as : List CompileAction} (ha : ∀ a ∈ as, g.compileActions.find? a.object.path = some a)
    (hp : p ∈ g.prerequisites) (hnot : p ∉ as.map (·.object.path)) :
    t.place (project / p) ∉ footprints t project as := by
  rintro ⟨a, hmem, hplace | hbeside⟩
  · have hobject := (hg.compileAction _ a (ha a hmem)).2
    have heq := h.eq_of_place_eq p hp _ (mem_outputs_of_object hobject) hplace
    exact hnot (List.mem_map.mpr ⟨a, hmem, heq.symm⟩)
  · exact h.notBeside p hp _ (mem_values_of_object (hg.compileAction _ a (ha a hmem)).2) hbeside

/-! ### Objects that are needed -/

/-- The objects of the target at a path. -/
def objectsAt (g : Graph) (p : Path) : List Path := (g.targets.find? p).elim [] (·.objects)

/-- The objects of targets are those of each target, first occurrences. -/
theorem objectsOf_eq (g : Graph) (order : List Path) :
    g.objectsOf order = (order.flatMap g.objectsAt).eraseDups := by
  have hfold : ∀ (order xs : List Path),
      order.foldl (fun objects p ↦ appendNew objects (g.objectsAt p)) xs.eraseDups =
        (xs ++ order.flatMap g.objectsAt).eraseDups := by
    intro order
    induction order with
    | nil => intro xs; simp
    | cons p ps ih =>
      intro xs
      rw [List.foldl_cons, appendNew_eraseDups, ih, List.flatMap_cons, List.append_assoc]
  exact hfold order []

theorem mem_objectsOf_iff {order : List Path} : q ∈ g.objectsOf order ↔ ∃ p ∈ order, q ∈ g.objectsAt p := by
  rw [objectsOf_eq, List.mem_eraseDups, List.mem_flatMap]

theorem mem_objectsOf {order : List Path} {t : Target} (hp : p ∈ order)
    (ht : g.targets.find? p = some t) (hq : q ∈ t.objects) : q ∈ g.objectsOf order := by
  refine mem_objectsOf_iff.mpr ⟨p, hp, ?_⟩
  rw [objectsAt, ht]
  exact hq

/-- The object at a path is stale. -/
def IsStaleObject (g : Graph) (t : FileTree) (project p : Path) : Prop :=
  ∃ o, g.objects.find? p = some o ∧ g.IsStale t project o

open Classical in
/-- Judging picks out the actions of stale objects. -/
theorem Judges.eq_filter (hg : g.Coherent) {ps : List Path} {as : List CompileAction}
    (h : Judges g t project ps as) :
    as.map (·.object.path) = ps.filter (fun p ↦ g.IsStaleObject t project p) ∧
      (∀ a ∈ as, g.compileActions.find? a.object.path = some a) ∧
      ∀ p ∈ ps, ∃ a, g.compileActions.find? p = some a ∧ ∃ v, g.judge t project a.object = .ok v := by
  induction h with
  | nil => exact ⟨rfl, by simp, by simp⟩
  | stale action verdict isStale rest ih =>
    obtain ⟨hmap, hmem, hall⟩ := ih
    obtain ⟨hpath, hobject⟩ := hg.compileAction _ _ action
    have hstale := (judge_isStale verdict).mp isStale
    refine ⟨?_, ?_, ?_⟩
    · rw [List.map_cons, hmap, hpath, List.filter_cons_of_pos]
      simpa using ⟨_, hobject, hstale⟩
    · intro a ha
      rcases List.mem_cons.mp ha with rfl | ha
      · rw [hpath]
        exact action
      · exact hmem a ha
    · intro p hp
      rcases List.mem_cons.mp hp with rfl | hp
      · exact ⟨_, action, _, verdict⟩
      · exact hall p hp
  | fresh action verdict isFresh rest ih =>
    obtain ⟨hmap, hmem, hall⟩ := ih
    obtain ⟨hpath, hobject⟩ := hg.compileAction _ _ action
    refine ⟨?_, hmem, ?_⟩
    · rw [hmap, List.filter_cons_of_neg]
      rw [decide_eq_true_iff]
      rintro ⟨o, ho, hstale⟩
      obtain rfl := Option.some.inj (hobject.symm.trans ho)
      exact absurd ((judge_isStale verdict).mpr hstale) (by simp [isFresh])
    · intro p hp
      rcases List.mem_cons.mp hp with rfl | hp
      · exact ⟨_, action, _, verdict⟩
      · exact hall p hp

/-- No object is picked out twice. -/
theorem Judges.nodup (hg : g.Coherent) {order : List Path} {as : List CompileAction}
    (h : Judges g t project (g.objectsOf order) as) : (as.map (·.object.path)).Nodup := by
  rw [(h.eq_filter hg).1, objectsOf_eq]
  exact (nodup_eraseDups _).filter _

end ModuleBuild.Graph
