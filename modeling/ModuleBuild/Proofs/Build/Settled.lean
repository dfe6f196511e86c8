import ModuleBuild.Proofs.Build.Progress

/-!
# What a build settles

A target is settled when it is there and none of its inputs is missing or newer. Where targets stand apart
(`TargetsApart`) and each that is made is renewed (`Renewing`), going through the targets of a ready order settles each
of them, whether it is made or kept, and none is unsettled by those that come after it (`settled_of_renewing`). Tools
that keep the contract renew what they make (`settled_of_realizesAll`). An object that is compiled stays as its compile
left it (`time?_of_compilesAll`).
-/

namespace ModuleBuild.Graph

variable {g : Graph} {o : BuildOptions} {project : Path} {now : Timestamp} {t t₁ t' : FileTree}
  {as : List CompileAction} {done ps : List Path} {p q : Path}

/-- The target is there, and its inputs are there and not newer. -/
def Settled (t : FileTree) (project : Path) (a : TargetAction) : Prop :=
  ∃ m, t.time? (project / a.target) = some m ∧
    ∀ q ∈ a.inputs, ∃ m', t.time? (project / q) = some m' ∧ ¬m < m'

/-- A target stays settled while neither it nor an input of it is written. -/
theorem Settled.persists {written made : Set Location} {a : TargetAction} (h : Settled t project a)
    (hev : t.Touches t' written made) (htarget : t.place (project / a.target) ∉ written)
    (hinputs : ∀ q ∈ a.inputs, t.place (project / q) ∉ written) : Settled t' project a := by
  obtain ⟨m, hm, hall⟩ := h
  refine ⟨m, hev.time?_eq_some htarget hm, fun q hq ↦ ?_⟩
  obtain ⟨m', hm', hnot⟩ := hall q hq
  exact ⟨m', hev.time?_eq_some (hinputs q hq) hm', hnot⟩

/-- A settled target none of whose inputs is made again is fresh. -/
theorem Settled.targetIsStale_eq_false {a : TargetAction} {remade : List Path}
    (h : Settled t project a) (hremade : ∀ q ∈ a.inputs, q ∉ remade) :
    targetIsStale t project a remade = .ok false := by
  obtain ⟨m, hm, hall⟩ := h
  exact Graph.targetIsStale_eq_false hm fun q hq ↦ ⟨hremade q hq, hall q hq⟩

/-- A target that is found fresh is settled. -/
theorem settled_of_targetIsStale {a : TargetAction} {remade : List Path}
    (h : targetIsStale t project a remade = .ok false) : Settled t project a := by
  obtain ⟨hthere, hiff⟩ := targetIsStale_eq_ok h
  have hfresh := mt hiff.mpr Bool.false_ne_true
  push Not at hfresh
  obtain ⟨hmade, hinputs⟩ := hfresh
  obtain ⟨m, hm⟩ := Option.ne_none_iff_exists'.mp hmade
  refine ⟨m, hm, fun q hq ↦ ?_⟩
  obtain ⟨m', hm'⟩ := Option.ne_none_iff_exists'.mp (hthere q hq)
  exact ⟨m', hm', fun hlt ↦ (hinputs q hq).2 ⟨m, m', hm, hm', hlt⟩⟩

/-- The objects that the listed targets are made from are objects of the graph. -/
def ObjectsKnown (g : Graph) (ps : List Path) : Prop :=
  ∀ p ∈ ps, ∀ target, g.targets.find? p = some target →
    ∀ q ∈ target.objects, ∃ o, g.objects.find? q = some o

/-- Targets stand at different locations, none at that of an object, and none at that of a prerequisite that is
named otherwise. -/
structure TargetsApart (g : Graph) (t : FileTree) (project : Path) : Prop where
  eq_of_place_eq : ∀ p ∈ g.targets.keys, ∀ q ∈ g.targets.keys,
    t.place (project / p) = t.place (project / q) → p = q
  object : ∀ p ∈ g.objects.keys, ∀ q ∈ g.targets.keys, t.place (project / p) ≠ t.place (project / q)
  prerequisite : ∀ p ∈ g.prerequisites, ∀ q ∈ g.targets.keys,
    t.place (project / p) = t.place (project / q) → p = q

theorem KeptApart.targetsApart (ht : g.KeptApart t project) : g.TargetsApart t project where
  eq_of_place_eq := fun _ hp _ hq ↦
    ht.outputs.eq_of_place_eq (mem_outputs_of_target hp) (mem_outputs_of_target hq)
  object := by
    intro p hp q hq heq
    obtain ⟨x, hx⟩ := Option.isSome_iff_exists.mp ((Table.contains_iff_mem_keys ..).mpr hp)
    exact ht.outputs.ne hx hq (ht.outputs.eq_of_place_eq (mem_outputs_of_object hx) (mem_outputs_of_target hq) heq)
  prerequisite := fun p hp q hq ↦ ht.prerequisites.eq_of_place_eq p hp q (mem_outputs_of_target hq)

/-- An input of a target stands at the location of another target only if the target needs it. -/
theorem place_input_ne (ht : g.TargetsApart t project) {target : Target}
    (htarget : g.targets.find? p = some target)
    (hknown : ∀ q ∈ target.objects, ∃ o, g.objects.find? q = some o)
    {i : Path} (hi : i ∈ target.objects ++ target.prereqs) (hq : q ∈ g.targets.keys)
    (hneeds : ¬g.Needs p q) : t.place (project / i) ≠ t.place (project / q) := by
  rcases List.mem_append.mp hi with hi | hi
  · obtain ⟨x, hx⟩ := hknown i hi
    exact ht.object i ((Table.contains_iff_mem_keys ..).mp (Option.isSome_iff_exists.mpr ⟨x, hx⟩)) q hq
  · intro heq
    have hiq := ht.prerequisite i (mem_prerequisites htarget hi) q hq heq
    exact hneeds ⟨target, htarget, hiq ▸ hi, (Table.contains_iff_mem_keys ..).mpr hq⟩

/-! ### Targets that are renewed -/

/-- What stands at a path is written, at a time that is not before that of anything found in the tree; nothing else
changes but for directories that are made. -/
structure Renews (t t' : FileTree) (p : Path) : Prop where
  touches : t.Touches t' {t.place p} Set.univ
  latest : ∃ m, t'.time? p = some m ∧ ∀ q m', t.time? q = some m' → ¬m < m'

/-- Whichever target is made in a tree of some kind is renewed, and the tree that is left is of the kind again. -/
def Renewing (g : Graph) (o : BuildOptions) (kind : FileTree → Prop) : Prop :=
  ∀ p a t t' command, kind t → g.targetActions.find? p = some a → Realizes o a t t' command →
    kind t' ∧ Renews t t' (o.project / p)

/-- Going through targets touches at most these. -/
theorem touches_realizesAll {kind : FileTree → Prop} (hrenewing : g.Renewing o kind)
    {result result' : BuildResult} {commands : List (List String)}
    (h : RealizesAll g o result ps t₁ result' t' commands) (hkind : kind t₁) (hcurrent : t₁.current = t.current) :
    t₁.Touches t' (places t o.project ps) Set.univ := by
  have hmono {p : Path} {ps : List Path} : places t o.project ps ⊆ places t o.project (p :: ps) :=
    fun _ ⟨q, hq, hl⟩ ↦ ⟨q, List.mem_cons_of_mem _ hq, hl⟩
  induction h with
  | done => exact .refl ..
  | made action isStale first rest ih =>
    obtain ⟨hkind', hrenews⟩ := hrenewing _ _ _ _ _ hkind action first
    have hev := hrenews.touches
    refine (hev.mono ?_ (Set.Subset.refl _)).trans
      ((ih hkind' (hev.current.trans hcurrent)).mono hmono (Set.Subset.refl _))
    rintro l rfl
    exact ⟨_, List.mem_cons_self, FileTree.place_congr hcurrent _⟩
  | kept action isFresh rest ih => exact (ih hkind hcurrent).mono hmono (Set.Subset.refl _)

/-- A target that is renewed is settled, if its inputs were there and are not renewed with it. -/
theorem settled_of_renews {a : TargetAction} (h : Renews t₁ t' (project / a.target))
    (hthere : ∀ i ∈ a.inputs, ¬Missing t₁ project i)
    (happart : ∀ i ∈ a.inputs, t₁.place (project / i) ≠ t₁.place (project / a.target)) :
    Settled t' project a := by
  obtain ⟨now, hnow, hlatest⟩ := h.latest
  refine ⟨now, hnow, fun i hi ↦ ?_⟩
  obtain ⟨m, hm⟩ := Option.ne_none_iff_exists'.mp (hthere i hi)
  exact ⟨m, h.touches.time?_eq_some (happart i hi) hm, hlatest _ m hm⟩

/-- A target that is settled when its turn is over stays settled. -/
theorem Settled.of_rest (hg : g.Coherent) (ht : g.TargetsApart t o.project) {kind : FileTree → Prop}
    (hrenewing : g.Renewing o kind) {result result' : BuildResult} {commands : List (List String)}
    (hkind : kind t₁) (hcurrent : t₁.current = t.current) (hready : g.ReadyOrder done (p :: ps))
    (hknown : g.ObjectsKnown (p :: ps)) {a : TargetAction} (ha : g.targetActions.find? p = some a)
    (h : Settled t₁ o.project a) (rest : RealizesAll g o result ps t₁ result' t' commands) :
    Settled t' o.project a := by
  have hkeys : ∀ q ∈ p :: ps, q ∈ g.targets.keys := fun q hq ↦
    (Table.contains_iff_mem_keys ..).mp (hready.isTarget q hq)
  obtain ⟨hpath, target, htarget, hobjects, hprereqs⟩ := hg.targetAction p a ha
  refine h.persists (touches_realizesAll hrenewing rest hkind hcurrent) ?_ fun i hi ↦ ?_
  · rintro ⟨q, hq, heq⟩
    rw [FileTree.place_congr hcurrent, hpath] at heq
    have hpq := ht.eq_of_place_eq p (hkeys p List.mem_cons_self) q (hkeys q (List.mem_cons_of_mem _ hq)) heq
    exact hready.2.2.2.notMem_done hq (by simp [hpq])
  · rintro ⟨q, hq, heq⟩
    rw [FileTree.place_congr hcurrent] at heq
    refine place_input_ne ht htarget (hknown p List.mem_cons_self target htarget) ?_
      (hkeys q (List.mem_cons_of_mem _ hq)) (hready.not_needs (List.mem_cons_of_mem _ hq)) heq
    rwa [TargetAction.inputs, hobjects, hprereqs] at hi

/-- Going through the targets of a ready order settles them all, if those that are made are renewed. -/
theorem settled_of_renewing (hg : g.Coherent) (ht : g.TargetsApart t o.project) {kind : FileTree → Prop}
    (hrenewing : g.Renewing o kind) {result result' : BuildResult} {commands : List (List String)}
    (h : RealizesAll g o result ps t₁ result' t' commands) (hkind : kind t₁)
    (hcurrent : t₁.current = t.current) (hready : g.ReadyOrder done ps) (hknown : g.ObjectsKnown ps) :
    ∀ p ∈ ps, ∀ a, g.targetActions.find? p = some a → Settled t' o.project a := by
  induction h generalizing done with
  | done => simp
  | made action isStale first rest ih =>
    next result result' p ps a t₁ t₂ t' command commands =>
    have hp := (Table.contains_iff_mem_keys ..).mp (hready.isTarget p List.mem_cons_self)
    obtain ⟨hpath, target, htarget, hobjects, hprereqs⟩ := hg.targetAction p a action
    obtain ⟨hkind', hrenews⟩ := hrenewing p a t₁ t₂ command hkind action first
    have hcurrent' := hrenews.touches.current.trans hcurrent
    have hsettled : Settled t₂ o.project a := by
      refine settled_of_renews (hpath ▸ hrenews) (targetIsStale_eq_ok isStale).1 fun i hi ↦ ?_
      rw [FileTree.place_congr hcurrent, FileTree.place_congr hcurrent, hpath]
      refine place_input_ne ht htarget (hknown p List.mem_cons_self target htarget) ?_ hp
        (hready.not_needs List.mem_cons_self)
      rwa [TargetAction.inputs, hobjects, hprereqs] at hi
    intro q hq a' ha'
    rcases List.mem_cons.mp hq with rfl | hq
    · obtain rfl := Option.some.inj (action.symm.trans ha')
      exact hsettled.of_rest hg ht hrenewing hkind' hcurrent' hready hknown action rest
    · exact ih hkind' hcurrent' hready.2.2.2 (fun q' hq' ↦ hknown q' (List.mem_cons_of_mem _ hq')) q hq a' ha'
  | kept action isFresh rest ih =>
    next result result' p ps a t₁ t' commands =>
    have hsettled := settled_of_targetIsStale isFresh
    intro q hq a' ha'
    rcases List.mem_cons.mp hq with rfl | hq
    · obtain rfl := Option.some.inj (action.symm.trans ha')
      exact hsettled.of_rest hg ht hrenewing hkind hcurrent hready hknown action rest
    · exact ih hkind hcurrent hready.2.2.2
        (fun q' hq' ↦ hknown q' (List.mem_cons_of_mem _ hq')) q hq a' ha'

/-! ### Builds at one time -/

/-- Going through targets writes at most these. -/
theorem evolves_realizesAll (hg : g.Coherent) (ht : g.KeptApart t o.project)
    (htools : o.tools.Obeys g o.project now) {result result' : BuildResult}
    {commands : List (List String)} (h : RealizesAll g o result ps t₁ result' t' commands)
    (hw : t₁.WellFormed) (hcurrent : t₁.current = t.current) (hps : ∀ p ∈ ps, p ∈ g.targets.keys) :
    t₁.Evolves t' now (places t o.project ps) (g.aboveOutputs t o.project) := by
  induction h with
  | done => exact .refl ..
  | made action isStale first rest ih =>
    next result result' p ps a t₁ t₂ t' command commands =>
    have hout := mem_outputs_of_target (hps p List.mem_cons_self)
    obtain ⟨hev, -⟩ := evolves_realizes hg htools hw action (ht.outputs.isStraight p hout) first
    rw [FileTree.place_congr hcurrent] at hev
    have hev' := ih (hev.wellFormed hw) (hev.current.trans hcurrent) fun q hq ↦
      hps q (List.mem_cons_of_mem _ hq)
    refine (hev.mono ?_ ?_).trans (hev'.mono ?_ (Set.Subset.refl _))
    · rintro l rfl
      exact ⟨p, List.mem_cons_self, rfl⟩
    · exact fun l hl ↦ ⟨p, hout, hl⟩
    · rintro l ⟨q, hq, hl⟩
      exact ⟨q, List.mem_cons_of_mem _ hq, hl⟩
  | kept action isFresh rest ih =>
    next result result' p ps a t₁ t' commands =>
    refine (ih hw hcurrent fun q hq ↦ hps q (List.mem_cons_of_mem _ hq)).mono ?_ (Set.Subset.refl _)
    rintro l ⟨q, hq, hl⟩
    exact ⟨q, List.mem_cons_of_mem _ hq, hl⟩

/-- Tools that write at one time renew targets, in trees where nothing is later. -/
theorem renewing_of_obeys (hg : g.Coherent) (hs : ∀ p ∈ g.outputs, (o.project / p).IsStraight)
    (htools : o.tools.Obeys g o.project now) : g.Renewing o fun u ↦ u.WellFormed ∧ u.NoLater now := by
  rintro p a t t' command ⟨hw, hlater⟩ ha hr
  have hout := mem_outputs_of_target (hg.mem_keys_of_targetAction ha)
  obtain ⟨hev, bytes, hstat⟩ := evolves_realizes hg htools hw ha (hs p hout) hr
  refine ⟨⟨hev.wellFormed hw, hev.noLater hlater⟩, hev.toTouches.mono (Set.Subset.refl _) (Set.subset_univ _),
    now, FileTree.time?_eq_some.mpr ⟨_, hstat, rfl⟩, fun q m' hm' ↦ ?_⟩
  have hle := hlater.le_of_time? hm'
  rw [Timestamp.lt_iff]
  rw [Timestamp.le_iff] at hle
  omega

/-- With such tools going through the targets of a ready order settles them all. -/
theorem settled_of_realizesAll (hg : g.Coherent) (ht : g.KeptApart t o.project)
    (htools : o.tools.Obeys g o.project now) {result result' : BuildResult}
    {commands : List (List String)} (h : RealizesAll g o result ps t₁ result' t' commands)
    (hw : t₁.WellFormed) (hcurrent : t₁.current = t.current) (hlater : t₁.NoLater now)
    (hready : g.ReadyOrder done ps) (hknown : g.ObjectsKnown ps) :
    ∀ p ∈ ps, ∀ a, g.targetActions.find? p = some a → Settled t' o.project a :=
  settled_of_renewing hg ht.targetsApart (renewing_of_obeys hg ht.outputs.isStraight htools) h ⟨hw, hlater⟩
    hcurrent hready hknown

/-! ### What has been made -/

/-- Going through targets compiles nothing. -/
theorem compiled_of_realizesAll {result result' : BuildResult} {commands : List (List String)}
    (h : RealizesAll g o result ps t₁ result' t' commands) : result'.compiled = result.compiled := by
  induction h with
  | done => rfl
  | made _ _ _ _ ih => exact ih
  | kept _ _ _ ih => exact ih

/-- Going through targets makes no others. -/
theorem realized_of_realizesAll {result result' : BuildResult} {commands : List (List String)}
    (h : RealizesAll g o result ps t₁ result' t' commands) :
    result'.realized ⊆ result.realized ++ ps := by
  induction h with
  | done => simp
  | made _ _ _ _ ih => simpa using ih
  | kept _ _ _ ih =>
    refine List.Subset.trans ih (List.append_subset.mpr ⟨List.subset_append_left .., ?_⟩)
    exact List.subset_append_of_subset_right _ (List.subset_cons_self ..)

/-- Targets that are made, each at its turn, are files of the time of the build. -/
theorem stat_of_realizesAll (hg : g.Coherent) (ht : g.KeptApart t o.project)
    (htools : o.tools.Obeys g o.project now) {result result' : BuildResult}
    {commands : List (List String)} (h : RealizesAll g o result ps t₁ result' t' commands)
    (hw : t₁.WellFormed) (hcurrent : t₁.current = t.current) (hready : g.ReadyOrder done ps) :
    ∀ q ∈ result'.realized, q ∉ result.realized → ∃ bytes, t'.stat (o.project / q) = .ok (.file bytes now) := by
  induction h generalizing done with
  | done => exact fun q hq hnot ↦ absurd hq hnot
  | made action isStale first rest ih =>
    next result result' p ps a t₁ t₂ t' command commands =>
    have hkeys : ∀ q ∈ p :: ps, q ∈ g.targets.keys := fun q hq ↦
      (Table.contains_iff_mem_keys ..).mp (hready.isTarget q hq)
    have hout := mem_outputs_of_target (hkeys p List.mem_cons_self)
    obtain ⟨hev, bytes, hstat⟩ := evolves_realizes hg htools hw action (ht.outputs.isStraight p hout) first
    have hw' := hev.wellFormed hw
    have hcurrent' := hev.current.trans hcurrent
    intro q hq hnot
    by_cases hqp : q = p
    · refine ⟨bytes, (evolves_realizesAll hg ht htools rest hw' hcurrent' fun q hq ↦
        hkeys q (List.mem_cons_of_mem _ hq)).stat_eq_ok ?_ (hqp ▸ hstat)⟩
      rintro ⟨q', hq', heq⟩
      rw [FileTree.place, hcurrent', hqp] at heq
      have hpq := ht.outputs.eq_of_place_eq hout
        (mem_outputs_of_target (hkeys q' (List.mem_cons_of_mem _ hq'))) heq
      exact hready.2.2.2.notMem_done hq' (by simp [hpq])
    · exact ih hw' hcurrent' hready.2.2.2 q hq (by simpa [hqp] using hnot)
  | kept action isFresh rest ih => exact ih hw hcurrent hready.2.2.2

/-- Targets that are made, each at its turn, bear the time of the build. -/
theorem time?_of_realizesAll (hg : g.Coherent) (ht : g.KeptApart t o.project)
    (htools : o.tools.Obeys g o.project now) {result result' : BuildResult}
    {commands : List (List String)} (h : RealizesAll g o result ps t₁ result' t' commands)
    (hw : t₁.WellFormed) (hcurrent : t₁.current = t.current) (hready : g.ReadyOrder done ps) :
    ∀ q ∈ result'.realized, q ∉ result.realized → t'.time? (o.project / q) = some now := by
  intro q hq hnot
  obtain ⟨bytes, hstat⟩ := stat_of_realizesAll hg ht htools h hw hcurrent hready q hq hnot
  exact FileTree.time?_eq_some.mpr ⟨_, hstat, rfl⟩

/-- Going through targets leaves objects as they are. -/
theorem stat_object_of_realizesAll (hg : g.Coherent) (ht : g.KeptApart t o.project)
    (htools : o.tools.Obeys g o.project now) {result result' : BuildResult}
    {commands : List (List String)} (h : RealizesAll g o result ps t₁ result' t' commands)
    (hw : t₁.WellFormed) (hcurrent : t₁.current = t.current) (hps : ∀ p ∈ ps, p ∈ g.targets.keys)
    {x : ObjectRecord} (hx : g.objects.find? q = some x) {e : Entry}
    (he : t₁.stat (o.project / q) = .ok e) : t'.stat (o.project / q) = .ok e := by
  refine (evolves_realizesAll hg ht htools h hw hcurrent hps).stat_eq_ok ?_ he
  rintro ⟨p, hp, heq⟩
  rw [FileTree.place, hcurrent] at heq
  exact ht.outputs.ne hx (hps p hp) (ht.outputs.eq_of_place_eq (mem_outputs_of_object hx)
    (mem_outputs_of_target (hps p hp)) heq)

/-- Objects keep their times while targets are gone through. -/
theorem time?_object_of_realizesAll (hg : g.Coherent) (ht : g.KeptApart t o.project)
    (htools : o.tools.Obeys g o.project now) {result result' : BuildResult}
    {commands : List (List String)} (h : RealizesAll g o result ps t₁ result' t' commands)
    (hw : t₁.WellFormed) (hcurrent : t₁.current = t.current) (hps : ∀ p ∈ ps, p ∈ g.targets.keys)
    {x : ObjectRecord} (hx : g.objects.find? q = some x) {m : Timestamp}
    (hm : t₁.time? (o.project / q) = some m) : t'.time? (o.project / q) = some m := by
  obtain ⟨e, he, rfl⟩ := FileTree.time?_eq_some.mp hm
  exact FileTree.time?_eq_some.mpr
    ⟨e, stat_object_of_realizesAll hg ht htools h hw hcurrent hps hx he, rfl⟩

/-- Objects that are compiled, each once, are files of the time of the build. -/
theorem stat_of_compilesAll (hg : g.Coherent) (ht : g.KeptApart t o.project)
    (htools : o.tools.Obeys g o.project now) {commands : List (List String)}
    (h : CompilesAll o as t₁ t' commands) (hw : t₁.WellFormed) (hcurrent : t₁.current = t.current)
    (has : ∀ a ∈ as, g.compileActions.find? a.object.path = some a)
    (hnodup : (as.map (·.object.path)).Nodup) :
    ∀ a ∈ as, ∃ bytes, t'.stat (o.project / a.object.path) = .ok (.file bytes now) := by
  induction h with
  | nil => simp
  | cons first rest ih =>
    next a as t₁ t₂ t' command commands =>
    obtain ⟨hnew, hnodup⟩ := List.nodup_cons.mp hnodup
    have has' := fun a' ha' ↦ has a' (List.mem_cons_of_mem _ ha')
    have hobject (a' : CompileAction) (ha' : a' ∈ a :: as) :=
      (hg.compileAction _ a' (has a' ha')).2
    have hs (a' : CompileAction) (ha' : a' ∈ a :: as) :=
      ht.outputs.isStraight _ (mem_outputs_of_object (hobject a' ha'))
    obtain ⟨hev, bytes, hstat⟩ := evolves_compiles hg htools hw (has a List.mem_cons_self)
      (hs a List.mem_cons_self) first
    have hw' := hev.wellFormed hw
    have hcurrent' := hev.current.trans hcurrent
    intro a' ha'
    rcases List.mem_cons.mp ha' with rfl | ha'
    · have hrest := evolves_compilesAll hg htools hw' has'
        (fun a ha ↦ hs a (List.mem_cons_of_mem _ ha)) rest
      refine ⟨bytes, hrest.stat_eq_ok ?_ hstat⟩
      have hplaces : footprints t₂ o.project as = footprints t o.project as := by
        simp only [footprints, footprint_eq hcurrent']
      rw [hplaces, FileTree.place, hcurrent']
      exact ht.outputs.object_notMem_footprints hg has' (hobject a' List.mem_cons_self) hnew
    · exact ih hw' hcurrent' has' hnodup a' ha'

/-- Objects that are compiled, each once, bear the time of the build. -/
theorem time?_of_compilesAll (hg : g.Coherent) (ht : g.KeptApart t o.project)
    (htools : o.tools.Obeys g o.project now) {commands : List (List String)}
    (h : CompilesAll o as t₁ t' commands) (hw : t₁.WellFormed) (hcurrent : t₁.current = t.current)
    (has : ∀ a ∈ as, g.compileActions.find? a.object.path = some a)
    (hnodup : (as.map (·.object.path)).Nodup) :
    ∀ a ∈ as, t'.time? (o.project / a.object.path) = some now := by
  intro a ha
  obtain ⟨bytes, hstat⟩ := stat_of_compilesAll hg ht htools h hw hcurrent has hnodup a ha
  exact FileTree.time?_eq_some.mpr ⟨_, hstat, rfl⟩

end ModuleBuild.Graph
