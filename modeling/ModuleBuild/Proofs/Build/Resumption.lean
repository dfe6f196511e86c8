import ModuleBuild.Proofs.Build.Faults
import ModuleBuild.Proofs.Build.Likeness
import ModuleBuild.Proofs.Build.Rehearsal
import ModuleBuild.Proofs.Build.Revisit

/-!
# Builds that are taken up again

A build that was broken off is taken up again by another one, with tools that do not fail: it finds done
what was done, and does what the first would have done if nothing had failed (`build_resumed`). It has no
memory of the first build, so that times of change alone tell it what is left to do.
-/

namespace ModuleBuild

open FileTree

namespace Graph

variable {g : Graph} {o : BuildOptions} {project : Path} {now : Timestamp} {t t₁ t' stopped : FileTree}

/-- Directories that are made leave descriptors as they are. -/
theorem Readable.persists {made : Set Location} (h : g.Readable t₁ project) (hg : g.Coherent)
    (ht : g.KeptApart t project) (hw : t₁.WellFormed) (hev : t₁.Evolves t' now ∅ made) :
    g.Readable t' project := fun r hr ↦
  (h r hr).persists hev.toTouches hw (ht.outputs.isStraight _ (mem_outputs_of_object (hg.find?_of_mem hr)))
    fun _ _ ↦ Set.notMem_empty _

/-- Seeing to the directory of a target does not change whether it is stale. -/
theorem targetIsStale_ensureParent {a : TargetAction} {remade : List Path} {b : Bool}
    (hev : t₁.Evolves stopped now ∅ (above (t₁.place (project / a.target)))) (hw : t₁.WellFormed)
    (hs : (project / a.target).IsStraight)
    (hlocate : stopped.locate (project / a.target) = .ok (stopped.place (project / a.target)))
    (hb : targetIsStale t₁ project a remade = .ok b) :
    targetIsStale stopped project a remade = .ok b := by
  have hthere := (targetIsStale_eq_ok hb).1
  have hself : stopped.time? (project / a.target) = t₁.time? (project / a.target) := by
    refine hev.time?_eq hw hs (Set.notMem_empty _) fun habove ↦ ?_
    -- a location that is above itself is the root
    have hnil : t₁.place (project / a.target) = [] := by
      have hlength := List.IsSuffix.length_le habove
      rw [List.length_tail] at hlength
      exact List.eq_nil_of_length_eq_zero (by omega)
    simp [hnil]
  have hinput : ∀ q ∈ a.inputs, stopped.time? (project / q) = t₁.time? (project / q) := by
    intro q hq
    obtain ⟨m, hm⟩ := Option.ne_none_iff_exists'.mp (hthere q hq)
    rw [hm, hev.time?_eq_some (Set.notMem_empty _) hm]
  have hlooked : ∃ made?, modified? stopped project a.target = .ok made? := by
    cases he : stopped.entry? (stopped.place (project / a.target)) with
    | none =>
      have hstat : stopped.stat (project / a.target) = .error .notFound := by
        rw [FileTree.stat, hlocate, ok_bind, he]
      exact ⟨none, mapError_eq_ok.mpr (FileTree.modified?_eq_ok.mpr (.inr ⟨hstat, rfl⟩))⟩
    | some e =>
      exact ⟨_, modified?_of_time? (FileTree.time?_eq_some.mpr
        ⟨e, FileTree.stat_eq_ok.mpr ⟨hlocate, he⟩, rfl⟩)⟩
  obtain ⟨made?, hlooked⟩ := hlooked
  refine targetIsStale_of_iff hb hlooked (fun q hq ↦ ?_) ?_
  · rw [Missing, hinput q hq]
    exact hthere q hq
  · rw [Missing, Missing, hself]
    refine or_congr_right (exists_congr fun q ↦ and_congr_right fun hq ↦ ?_)
    rw [Older, Older, hself, hinput q hq]

/-- Objects that are left to be compiled, and then are, are judged as they were at the start. -/
theorem judge_of_left {p : Project} {r r' : Resolved} {as₁ as₂ : List CompileAction}
    (hproject : o.project = p.directory) (htools : o.tools.Obeys r.graph o.project now)
    (hapart : r.graph.KeptApart t o.project) (h : Revisited p r r' t stopped now as₁ [])
    (haction : ∀ a ∈ as₁ ++ as₂, r.graph.compileActions.find? a.object.path = some a)
    (hnodup : ((as₁ ++ as₂).map (·.object.path)).Nodup) {commands : List (List String)}
    (hleft : CompilesAll o as₂ stopped t' commands)
    (hheaders : ∀ x ∈ r.graph.objects.values, ∀ q ∈ (r.graph.headers.find? x.path).getD [],
      ∃ m, t.time? (p.directory / q) = some m) :
    ∀ a ∈ as₂, ∀ v, r.graph.judge t p.directory a.object = .ok v →
      r'.graph.judge stopped p.directory a.object = .ok v := by
  have hg := h.coherent
  have hhalf := hproject ▸ h.halfway
  have hw := hhalf.wellFormed hapart
  have haction₂ := fun a ha ↦ haction a (List.mem_append_right as₁ ha)
  have hobject (a : CompileAction) (ha : a ∈ as₂) := (hg.compileAction _ a (haction₂ a ha)).2
  have hs (a : CompileAction) (ha : a ∈ as₂) :=
    hapart.outputs.isStraight _ (mem_outputs_of_object (hobject a ha))
  have hplaces : footprints stopped o.project as₂ = footprints t o.project as₂ := by
    simp only [footprints, footprint_eq hhalf.evolves.current]
  have hparts := hnodup
  rw [List.map_append, List.nodup_append] at hparts
  intro a ha v hv
  have hnot : a.object.path ∉ as₁.map (·.object.path) := fun hmem ↦
    hparts.2.2 _ hmem _ (List.mem_map_of_mem ha) rfl
  have hmem := mem_values_of_object (hobject a ha)
  refine h.judge_of_pending hmem hnot hv (hheaders _ hmem) fun m? hm ↦ ?_
  -- the object will be a file, so that no file stands in its way that was not there before
  rw [← hproject] at hm ⊢
  obtain ⟨bytes, hfile⟩ :=
    stat_of_compilesAll hg hapart htools hleft hw hhalf.evolves.current haction₂ hparts.2.1 a ha
  refine hhalf.evolves.modified?_eq_ok hapart.wellFormed (hs a ha)
    (hhalf.object_notMem hg hapart (hobject a ha) hnot)
    (evolves_compilesAll hg htools hw haction₂ hs hleft).toTouches (fun l hl ↦ ?_) hfile hm
  rintro (hmem | ⟨q, hq, -⟩)
  · exact hapart.footprints_disjoint hg haction hnodup (hplaces ▸ hl) hmem
  · simp at hq

/-- A build that was broken off can be taken up in the tree that it left: some objects have been compiled
and some targets made, and once the project is resolved again, a build runs the commands that are left, and
comes to what the build would have come to. -/
def CanResume (p : Project) (r : Resolved) (o : BuildOptions) (goals? : Option (List Path))
    (t stopped t' : FileTree) (now : Timestamp) (left : List (List String)) : Prop :=
  ∃ as realized, r.graph.Halfway t stopped p.directory now as realized ∧
    (r.graph.Readable t p.directory → r.graph.Readable stopped p.directory) ∧
    ∀ r', Revisited p r r' t stopped now as realized →
      (∀ x ∈ r'.graph.objects.values, ∀ q ∈ (r'.graph.headers.find? x.path).getD [],
        ∃ m, stopped.time? (p.directory / q) = some m ∧ m ≤ now) →
      ∃ resumed u', RunM.Runs (r'.graph.build o goals?) stopped left (.ok resumed) u' ∧
        t'.SameContents u'

section

variable {p : Project} {r : Resolved} {tools : Toolchain} {later : Timestamp}
  {goals? : Option (List Path)} {result : BuildResult} {commands : List (List String)}
  {order : List Path} {as : List CompileAction} {compiled : FileTree}
  {compiles realizes : List (List String)}
  (hresolve : (p.resolve t).2 = .ok r) (hproject : o.project = p.directory)
  (hbuilds : Builds r.graph o (goals?.getD r.graph.defaultGoals) t result t' commands order as compiled
    compiles realizes)
  (htools : o.tools.Obeys r.graph p.directory now) (htools' : tools.Obeys r.graph p.directory later)
  (hle : now ≤ later) (hagree : o.tools.Agrees tools)
  (hfiles : t.FilesBefore now) (hlater : t.NoLater now)
  (hapart : r.graph.KeptApart t p.directory)

include hresolve hproject hbuilds htools htools' hle hagree hfiles hlater hapart

/-- A build that has stopped at a compile can be taken up. -/
theorem canResume_of_compile {as₁ as₂ : List CompileAction} {a : CompileAction}
    {commands₁ commands₂ : List (List String)} {command : List String} (has : as = as₁ ++ a :: as₂)
    (hstops : StopsAtCompile o as₁ a as₂ t stopped compiled commands₁ command commands₂)
    (hheaders : ∀ x ∈ r.graph.objects.values, ∀ q ∈ (r.graph.headers.find? x.path).getD [],
      ∃ m, t.time? (p.directory / q) = some m) :
    CanResume p r { o with tools } goals? t stopped t' now (command :: commands₂ ++ realizes) := by
  obtain ⟨root, os, hresolves⟩ := Project.resolve_eq_ok.mp hresolve
  have hg := hresolves.coherent
  obtain ⟨⟨t₁, hdone, hparent⟩, t₂, hfinishes, hrest⟩ := hstops
  rw [← hproject] at htools htools' hapart
  have haction := hbuilds.action hg
  have hnodup := hbuilds.nodup hg
  subst has
  have haction₁ := fun b hb ↦ haction b (List.mem_append_left (a :: as₂) hb)
  have haction₂ := fun b hb ↦ haction b (List.mem_append_right as₁ hb)
  have hobject (b : CompileAction) (hb : b ∈ as₁ ++ a :: as₂) := (hg.compileAction _ b (haction b hb)).2
  have hself := hobject a (by simp)
  obtain ⟨s, hname⟩ := (hg.object _ _ hself).2.1
  have hsegments := Path.segments_join_ne_nil (p := o.project) (Path.segments_ne_nil_of_name? hname)
  have hhalf₁ := Halfway.compilesAll hg hapart htools haction₁ hdone
  obtain ⟨hhalf, hev, hagain⟩ :=
    hhalf₁.ensureParent hapart (mem_outputs_of_object hself) hsegments hparent
  have hleft : CompilesAll o (a :: as₂) stopped compiled (command :: commands₂) :=
    .cons ⟨stopped, hagain, hfinishes⟩ hrest
  have hnodup₁ : (as₁.map (·.object.path)).Nodup := by
    rw [List.map_append, List.nodup_append] at hnodup
    exact hnodup.1
  have hnodup₂ : ((a :: as₂).map (·.object.path)).Nodup := by
    rw [List.map_append, List.nodup_append] at hnodup
    exact hnodup.2.1
  have htime : ∀ b ∈ as₁, stopped.time? (o.project / b.object.path) = some now := fun b hb ↦
    hev.time?_eq_some (Set.notMem_empty _)
      (time?_of_compilesAll hg hapart htools hdone hapart.wellFormed rfl haction₁ hnodup₁ b hb)
  have hw := hhalf.wellFormed hapart
  have hreadable : r.graph.Readable t o.project → r.graph.Readable stopped o.project := fun hread ↦
    (readable_of_compilesAll hg hapart htools hapart.wellFormed rfl haction₁ hdone hread).persists hg
      hapart (hhalf₁.wellFormed hapart) hev
  refine ⟨as₁, [], hproject ▸ hhalf, hproject ▸ hreadable, fun r' hrevisited hheaders' ↦ ?_⟩
  have hpending : ∀ b ∈ a :: as₂, ∃ v,
      r'.graph.judge stopped p.directory b.object = .ok v ∧ v.isStale := by
    intro b hb
    obtain ⟨v, hv, hisStale⟩ := hbuilds.judges.exists_verdict b (List.mem_append_right _ hb)
    refine ⟨v, ?_, hisStale⟩
    rw [hproject] at hv
    exact judge_of_left hproject htools hapart hrevisited haction hnodup hleft hheaders b hb v hv
  have hjudges := hrevisited.judges (hproject ▸ hbuilds.judges) hlater (hproject ▸ htime) hheaders' hpending
  have halike : r.graph.Alike t stopped stopped o.project now as₁ [] := by
    refine .start hhalf hapart fun q hq ↦ ?_
    rw [List.append_nil] at hq
    obtain ⟨b, hb, rfl⟩ := List.mem_map.mp hq
    exact htime b hb
  obtain ⟨u, hcompiles, halike⟩ :=
    halike.compilesAll hg hapart htools htools' hle hagree hnodup haction₂ hleft
  obtain ⟨resumed, u', hrealizes, hcontents⟩ := halike.realizesAll hg hapart htools htools' hle hagree
    hfiles hrevisited.targetActions_eq { compiled := (a :: as₂).map (·.object.path) } hbuilds.realizesAll
    rfl (by simp only [List.append_nil, List.map_append]; exact List.subset_append_right ..)
    (readyOrder_of_targetOrder hbuilds.targetOrder) (by simp) (hbuilds.objectsKnown hg)
  have hresumes : Builds r'.graph { o with tools } (goals?.getD r'.graph.defaultGoals) stopped resumed u'
      (command :: commands₂ ++ realizes) order (a :: as₂) u (command :: commands₂) realizes :=
    { targetOrder := (hrevisited.targetOrder_eq goals?).trans hbuilds.targetOrder
      judges := hproject ▸ hjudges
      jobs := .inr (hbuilds.jobs.resolve_left (by simp))
      compilesAll := hcompiles
      realizesAll := hrealizes
      commands_eq := rfl }
  exact ⟨resumed, u', runs_build_ok.mpr ⟨_, _, _, _, _, hresumes⟩, hcontents⟩

/-- A build that has stopped at a target can be taken up. -/
theorem canResume_of_target {ps₁ ps₂ : List Path} {q : Path} {a : TargetAction} {result₁ : BuildResult}
    {commands₁ commands₂ : List (List String)} {command : List String} (hps : order = ps₁ ++ q :: ps₂)
    (hstops : StopsAtTarget r.graph o { compiled := as.map (·.object.path) } ps₁ q ps₂ compiled stopped
      result t' commands₁ command commands₂ result₁ a) :
    CanResume p r { o with tools } goals? t stopped t' now (command :: commands₂) := by
  obtain ⟨root, os, hresolves⟩ := Project.resolve_eq_ok.mp hresolve
  have hg := hresolves.coherent
  obtain ⟨haction, ⟨t₁, hdone, hstale, hparent⟩, t₂, hmakes, hrest⟩ := hstops
  rw [← hproject] at htools htools' hapart
  have hkeys := hbuilds.mem_keys
  have hknown := hbuilds.objectsKnown hg
  have hready := readyOrder_of_targetOrder hbuilds.targetOrder
  subst hps
  obtain ⟨hready₁, hready₂⟩ := hready.of_append
  have hkeys₁ := fun q' hq' ↦ hkeys q' (List.mem_append_left (q :: ps₂) hq')
  have hout := mem_outputs_of_target (hkeys q (by simp))
  have hs := hapart.outputs.isStraight q hout
  obtain ⟨hpath, -⟩ := hg.targetAction q a haction
  have hcompiled := hbuilds.halfway_compiled hg hapart htools
  have hwcompiled := hcompiled.wellFormed hapart
  have hhalf₁ := hcompiled.realizesAll hg hapart htools hkeys₁ hdone
  have hw₁ := hhalf₁.wellFormed hapart
  have hwritten := written_makes hg htools haction hmakes
  rw [hpath] at hparent
  have hsegments := segments_ne_nil_of_written hw₁ hs hparent hwritten
  obtain ⟨hhalf, hev, hagain⟩ := hhalf₁.ensureParent hapart hout hsegments hparent
  have hw := hhalf.wellFormed hapart
  have hstale' : targetIsStale stopped o.project a (result₁.compiled ++ result₁.realized) = .ok true := by
    rw [← hpath] at hev hs hwritten
    exact targetIsStale_ensureParent hev hw₁ hs (hwritten.locate _ List.mem_cons_self) hstale
  have hleft : RealizesAll r.graph o result₁ (q :: ps₂) stopped result t' (command :: commands₂) :=
    .made haction hstale' ⟨stopped, hpath ▸ hagain, hmakes⟩ hrest
  have hcompiles := hbuilds.action hg
  have htime : ∀ b ∈ as, stopped.time? (o.project / b.object.path) = some now := by
    intro b hb
    have hmade := time?_of_compilesAll hg hapart htools hbuilds.compilesAll hapart.wellFormed rfl hcompiles
      (hbuilds.nodup hg) b hb
    exact hev.time?_eq_some (Set.notMem_empty _) (time?_object_of_realizesAll hg hapart htools hdone
      hwcompiled hcompiled.evolves.current hkeys₁ (hg.compileAction _ b (hcompiles b hb)).2 hmade)
  have hreadable : r.graph.Readable t o.project → r.graph.Readable stopped o.project := fun hread ↦
    (readable_of_realizesAll hg hapart htools hwcompiled hcompiled.evolves.current hkeys₁ hdone
      (readable_of_compilesAll hg hapart htools hapart.wellFormed rfl hcompiles hbuilds.compilesAll
        hread)).persists hg hapart hw₁ hev
  refine ⟨as, result₁.realized, hproject ▸ hhalf, hproject ▸ hreadable, fun r' hrevisited hheaders' ↦ ?_⟩
  have hjudged : Judges r.graph t p.directory (r.graph.objectsOf (ps₁ ++ q :: ps₂)) (as ++ []) := by
    simpa using hproject ▸ hbuilds.judges
  have hjudges := hrevisited.judges hjudged hlater (hproject ▸ htime) hheaders' (by simp)
  -- what was made, or kept, before the build stopped is settled
  have hsettled : ∀ q' ∈ ps₁, ∀ a, r.graph.targetActions.find? q' = some a →
      Settled stopped o.project a := fun q' hq' a ha ↦
    (settled_of_realizesAll hg hapart htools hdone hwcompiled hcompiled.evolves.current
      (hcompiled.evolves.noLater hlater) hready₁ (fun q' hq' ↦ hknown q' (List.mem_append_left _ hq'))
      q' hq' a ha).persists hev.toTouches (Set.notMem_empty _) fun _ _ ↦ Set.notMem_empty _
  have hkept := hrevisited.realizesAll_of_settled (o := { o with tools }) hproject hkeys₁
    (hproject ▸ hsettled)
  have halike : r.graph.Alike t stopped stopped o.project now as result₁.realized := by
    refine .start hhalf hapart fun q' hq' ↦ ?_
    rcases List.mem_append.mp hq' with hq' | hq'
    · obtain ⟨b, hb, rfl⟩ := List.mem_map.mp hq'
      exact htime b hb
    · exact hev.time?_eq_some (Set.notMem_empty _) (time?_of_realizesAll hg hapart htools hdone hwcompiled
        hcompiled.evolves.current hready₁ q' hq' (by simp))
  obtain ⟨resumed, u', hrealizes, hcontents⟩ := Alike.realizesAll hg hapart htools htools' hle hagree
    hfiles hrevisited.targetActions_eq { upToDate := ps₁ } hleft halike (compiled_of_realizesAll hdone)
    (by simp) hready₂ (by simpa using realized_of_realizesAll hdone)
    fun q' hq' ↦ hknown q' (List.mem_append_right _ hq')
  have hresumes : Builds r'.graph { o with tools } (goals?.getD r'.graph.defaultGoals) stopped resumed u'
      (command :: commands₂) (ps₁ ++ q :: ps₂) [] stopped [] (command :: commands₂) :=
    { targetOrder := (hrevisited.targetOrder_eq goals?).trans hbuilds.targetOrder
      judges := hproject ▸ hjudges
      jobs := .inl rfl
      compilesAll := .nil
      realizesAll := hkept.append hrealizes
      commands_eq := rfl }
  exact ⟨resumed, u', runs_build_ok.mpr ⟨_, _, _, _, _, hresumes⟩, hcontents⟩

end

end Graph

/-! ### A build that fails at its last step -/

namespace Rehearsal

/-- The tools when the link fails. -/
def faulty : Toolchain := { script with fail := ["app"] }.toolchain

/-- The tools at a later time. -/
def afterwards : BuildOptions := { options with tools := { script with now := .ofSeconds 200 }.toolchain }

/-- The first build, when the link fails. -/
def broken : Run := ((graph.build { options with tools := faulty } none).run.run (start tree)).2

/-- The build of the chained project, when the link fails. -/
def chainedBroken : Run :=
  ((chainedBefore.build { options with tools := faulty } none).run.run (start chainedTree)).2

/-- The build that takes it up. -/
def chainedResumed : Run := ((chainedAfter.build afterwards none).run.run (start chainedBroken.tree)).2

end Rehearsal

namespace Graph

end Graph

end ModuleBuild
