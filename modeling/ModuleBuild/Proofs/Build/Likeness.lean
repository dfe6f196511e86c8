import ModuleBuild.Proofs.Build.Settled

/-!
# Builds alike

A build that goes on in a tree with the same contents, at a later time, does the same: the same objects are
compiled (`Alike.compilesAll`), and the same targets made (`Alike.realizesAll`), by the same commands,
though it need not keep in mind what was made before it. For that the times of files are enough: what was
made before is newer than every file that is still to be made again.
-/

namespace ModuleBuild

/-- Where two trees held the same entry, and what was written elsewhere leaves the same contents, they hold
the same entry. -/
theorem FileTree.Evolves.entry?_eq_of_sameContents {t t' u u' : FileTree} {now later : Timestamp}
    {written made made' : Set Location} (ht : t.Evolves t' now written made)
    (hu : u.Evolves u' later written made') (hclock : u.clock = t.clock) (hc : t'.SameContents u')
    {l : Location} (hl : l ∉ written) (he : u.entry? l = t.entry? l) : u'.entry? l = t'.entry? l := by
  rcases ht.kept l hl with ht' | ⟨hn, -, ht'⟩
  · rcases hu.kept l hl with hu' | ⟨hn, -, hu'⟩
    · rw [hu', he, ht']
    · have hnone := (hc.entry l).entry?_eq_none (ht'.trans (he.symm.trans hn))
      simp [hnone] at hu'
  · rcases hu.kept l hl with hu' | ⟨-, -, hu'⟩
    · have hnone := (hc.symm.entry l).entry?_eq_none (hu'.trans (he.trans hn))
      simp [hnone] at ht'
    · rw [hu', ht', hclock]

namespace Graph

open FileTree

variable {g g' : Graph} {o : BuildOptions} {tools : Toolchain} {project : Path} {now later : Timestamp}
  {t t' u u' v : FileTree} {as as₁ as₂ : List CompileAction} {realized : List Path} {p q : Path}

/-! ### Steps in trees with the same contents -/

theorem finishes_sameContents (hagree : o.tools.Agrees tools) {a : CompileAction} {command : List String}
    (h : Finishes o a t t' command) (hc : t.SameContents u) :
    ∃ u', Finishes { o with tools } a u u' command ∧ t'.SameContents u' := by
  obtain ⟨t₁, r, d?, hw, htool, hr, hfinalize⟩ := h
  obtain ⟨hresponse, hleft⟩ := hagree t u o.project command hc
  rw [htool] at hresponse hleft
  obtain ⟨u', hfinalize', hc'⟩ := Listing.finalize_sameContents hleft hfinalize
  exact ⟨u', ⟨_, r, d?, hw, Prod.ext rfl hresponse, hr, hfinalize'⟩, hc'⟩

theorem compiles_sameContents (hagree : o.tools.Agrees tools) {a : CompileAction} {command : List String}
    (h : Compiles o a t t' command) (hc : t.SameContents u) :
    ∃ u', Compiles { o with tools } a u u' command ∧ t'.SameContents u' := by
  obtain ⟨t₁, hparent, hfinishes⟩ := h
  obtain ⟨u₁, hparent', hc₁⟩ := hc.ensureDirectory hparent
  obtain ⟨u', hfinishes', hc'⟩ := finishes_sameContents hagree hfinishes hc₁
  exact ⟨u', ⟨u₁, hparent', hfinishes'⟩, hc'⟩

theorem compilesAll_sameContents (hagree : o.tools.Agrees tools) {commands : List (List String)}
    (h : CompilesAll o as t t' commands) (hc : t.SameContents u) :
    ∃ u', CompilesAll { o with tools } as u u' commands ∧ t'.SameContents u' := by
  induction h generalizing u with
  | nil => exact ⟨u, .nil, hc⟩
  | cons first rest ih =>
    obtain ⟨u₁, hfirst, hc₁⟩ := compiles_sameContents hagree first hc
    obtain ⟨u', hrest, hc'⟩ := ih hc₁
    exact ⟨u', .cons hfirst hrest, hc'⟩

theorem realizes_sameContents (hagree : o.tools.Agrees tools) {a : TargetAction} {command : List String}
    (h : Realizes o a t t' command) (hc : t.SameContents u) :
    ∃ u', Realizes { o with tools } a u u' command ∧ t'.SameContents u' := by
  obtain ⟨t₁, hparent, r, hw, htool, hr⟩ := h
  obtain ⟨u₁, hparent', hc₁⟩ := hc.ensureDirectory hparent
  obtain ⟨hresponse, hleft⟩ := hagree t₁ u₁ o.project command hc₁
  rw [htool] at hresponse hleft
  exact ⟨_, ⟨u₁, hparent', r, hw, Prod.ext rfl hresponse, hr⟩, hleft⟩

/-! ### Two builds under way -/

/-- A build is under way in a tree, and another has come as far: it has the same contents and, where
nothing was written, the same entries; what was written bears no earlier time than the first build's. -/
structure Alike (g : Graph) (t u v : FileTree) (project : Path) (now : Timestamp)
    (as : List CompileAction) (realized : List Path) : Prop where
  halfway : g.Halfway t u project now as realized
  contents : u.SameContents v
  entry : ∀ l, l ∉ footprints t project as ∪ places t project realized → v.entry? l = u.entry? l
  newer : ∀ q ∈ as.map (·.object.path) ++ realized, ∃ m, v.time? (project / q) = some m ∧ now ≤ m
  wellFormed : v.WellFormed

namespace Alike

/-- A build that is broken off and one that takes it up come from the same tree. -/
theorem start (h : g.Halfway t u project now as realized) (ht : g.KeptApart t project)
    (htime : ∀ q ∈ as.map (·.object.path) ++ realized, u.time? (project / q) = some now) :
    g.Alike t u u project now as realized :=
  ⟨h, .refl u, fun _ _ ↦ rfl, fun q hq ↦ ⟨now, htime q hq, Int.le_refl _⟩, h.wellFormed ht⟩

/-- At a path that is not written the same is found. -/
theorem stat_eq (h : g.Alike t u v project now as realized)
    (hp : t.place (project / p) ∉ footprints t project as ∪ places t project realized) :
    v.stat (project / p) = u.stat (project / p) := by
  refine h.contents.stat_eq (h.entry _ ?_)
  rw [h.halfway.evolves.place_eq]
  exact hp

/-- Objects go on to be compiled alike. -/
theorem compilesAll (h : g.Alike t u v o.project now as₁ []) (hg : g.Coherent)
    (ht : g.KeptApart t o.project) (htools : o.tools.Obeys g o.project now)
    (hlater : tools.Obeys g o.project later) (hle : now ≤ later) (hagree : o.tools.Agrees tools)
    (hnodup : ((as₁ ++ as₂).map (·.object.path)).Nodup)
    (has : ∀ a ∈ as₂, g.compileActions.find? a.object.path = some a) {commands : List (List String)}
    (hc : CompilesAll o as₂ u u' commands) :
    ∃ v', CompilesAll { o with tools } as₂ v v' commands ∧
      g.Alike t u' v' o.project now (as₁ ++ as₂) [] := by
  obtain ⟨v', hc', hcontents⟩ := compilesAll_sameContents hagree hc h.contents
  have hlater' : ({ o with tools } : BuildOptions).tools.Obeys g o.project later := hlater
  have hobject (a : CompileAction) (ha : a ∈ as₂) := (hg.compileAction _ a (has a ha)).2
  have hs (a : CompileAction) (ha : a ∈ as₂) :=
    ht.outputs.isStraight _ (mem_outputs_of_object (hobject a ha))
  have hcurrent := h.halfway.evolves.current
  have hfootprints {w : FileTree} (hw : w.current = t.current) :
      footprints w o.project as₂ = footprints t o.project as₂ := by
    simp only [footprints, footprint_eq hw]
  have hev := evolves_compilesAll hg htools (h.halfway.wellFormed ht) has hs hc
  have hev' := evolves_compilesAll hg hlater' h.wellFormed has hs hc'
  rw [hfootprints hcurrent] at hev
  rw [hfootprints (h.contents.current.trans hcurrent)] at hev'
  have hmem₁ := footprints_mono (List.subset_append_left as₁ as₂) t o.project
  have hmem₂ := footprints_mono (List.subset_append_right as₁ as₂) t o.project
  refine ⟨v', hc', ⟨⟨?_, by simp, ?_⟩, hcontents, ?_, ?_, hev'.wellFormed h.wellFormed⟩⟩
  · intro a ha
    rcases List.mem_append.mp ha with ha | ha
    · exact h.halfway.action a ha
    · exact has a ha
  · refine (h.halfway.evolves.mono ?_ (Set.Subset.refl _)).trans (hev.mono ?_ ?_)
    · exact Set.union_subset_union_left _ hmem₁
    · exact hmem₂.trans Set.subset_union_left
    · rintro l ⟨a, ha, hl⟩
      rw [h.halfway.evolves.place_eq] at hl
      exact ⟨_, mem_outputs_of_object (hobject a ha), hl⟩
  · intro l hl
    rw [Set.mem_union, not_or] at hl
    refine hev.entry?_eq_of_sameContents hev' h.contents.clock hcontents (fun hmem ↦ hl.1 (hmem₂ hmem)) ?_
    exact h.entry l fun hmem ↦ hmem.elim (fun hmem ↦ hl.1 (hmem₁ hmem)) hl.2
  · rw [List.map_append, List.nodup_append] at hnodup
    intro q hq
    rw [List.append_nil, List.map_append] at hq
    rcases List.mem_append.mp hq with hq | hq
    · obtain ⟨m, hm, hle⟩ := h.newer q (List.mem_append_left _ hq)
      obtain ⟨a, ha, rfl⟩ := List.mem_map.mp hq
      refine ⟨m, hev'.time?_eq_some ?_ hm, hle⟩
      rw [h.contents.place_eq, h.halfway.evolves.place_eq]
      exact ht.outputs.object_notMem_footprints hg has
        (hg.compileAction _ a (h.halfway.action a ha)).2
        fun hmem ↦ hnodup.2.2 _ hq _ hmem rfl
    · obtain ⟨a, ha, rfl⟩ := List.mem_map.mp hq
      have ht' : g.KeptApart t ({ o with tools } : BuildOptions).project := ht
      exact ⟨later, time?_of_compilesAll hg ht' hlater' hc' h.wellFormed
        (h.contents.current.trans hcurrent) has hnodup.2.1 a ha, hle⟩

/-- A target is made alike. -/
theorem realizes (h : g.Alike t u v o.project now as realized) (hg : g.Coherent)
    (ht : g.KeptApart t o.project) (htools : o.tools.Obeys g o.project now)
    (hlater : tools.Obeys g o.project later) (hle : now ≤ later) (hagree : o.tools.Agrees tools)
    (hp : p ∈ g.targets.keys) (hnew : p ∉ realized) {a : TargetAction} {command : List String}
    (ha : g.targetActions.find? p = some a) (hr : Realizes o a u u' command) :
    ∃ v', Realizes { o with tools } a v v' command ∧
      g.Alike t u' v' o.project now as (realized ++ [p]) := by
  obtain ⟨v', hr', hcontents⟩ := realizes_sameContents hagree hr h.contents
  have hlater' : ({ o with tools } : BuildOptions).tools.Obeys g o.project later := hlater
  have hout := mem_outputs_of_target hp
  have hs := ht.outputs.isStraight p hout
  obtain ⟨hev, -⟩ := evolves_realizes hg htools (h.halfway.wellFormed ht) ha hs hr
  obtain ⟨hev', bytes, hstat⟩ := evolves_realizes hg hlater' h.wellFormed ha hs hr'
  rw [h.halfway.evolves.place_eq] at hev
  simp only [h.contents.place_eq, h.halfway.evolves.place_eq] at hev'
  refine ⟨v', hr', ⟨h.halfway.realizes hg ht htools hp ha hr, hcontents, ?_, ?_,
    hev'.wellFormed h.wellFormed⟩⟩
  · intro l hl
    rw [Set.mem_union, not_or] at hl
    refine hev.entry?_eq_of_sameContents hev' h.contents.clock hcontents ?_ (h.entry l ?_)
    · exact fun heq ↦ hl.2 ⟨p, by simp, heq⟩
    · rintro (hmem | ⟨q, hq, heq⟩)
      · exact hl.1 hmem
      · exact hl.2 ⟨q, List.mem_append_left _ hq, heq⟩
  · intro q hq
    rw [← List.append_assoc] at hq
    rcases List.mem_append.mp hq with hq | hq
    · obtain ⟨m, hm, hle⟩ := h.newer q hq
      refine ⟨m, hev'.time?_eq_some (fun heq ↦ ?_) hm, hle⟩
      rw [h.contents.place_eq, h.halfway.evolves.place_eq] at heq
      rcases List.mem_append.mp hq with hq | hq
      · obtain ⟨a', ha', rfl⟩ := List.mem_map.mp hq
        have hobject := (hg.compileAction _ a' (h.halfway.action a' ha')).2
        exact ht.outputs.ne hobject hp
          (ht.outputs.eq_of_place_eq (mem_outputs_of_object hobject) hout heq)
      · have hout' := mem_outputs_of_target (h.halfway.isTarget q hq)
        exact hnew (ht.outputs.eq_of_place_eq hout' hout heq ▸ hq)
    · rw [List.mem_singleton.mp hq]
      exact ⟨later, FileTree.time?_eq_some.mpr ⟨_, hstat, rfl⟩, hle⟩

/-- An input of a target that has not been made again bears the same time. -/
theorem time?_input (h : g.Alike t u v project now as realized) (hg : g.Coherent)
    (ht : g.KeptApart t project) (hknown : g.ObjectsKnown [p]) {a : TargetAction}
    (ha : g.targetActions.find? p = some a) (hq : q ∈ a.inputs)
    (hkept : q ∉ as.map (·.object.path) ++ realized) :
    v.time? (project / q) = u.time? (project / q) := by
  obtain ⟨-, target, htarget, hobjects, hprereqs⟩ := hg.targetAction p a ha
  rw [List.mem_append, not_or] at hkept
  rw [TargetAction.inputs, hobjects, hprereqs] at hq
  rw [FileTree.time?, FileTree.time?, h.stat_eq]
  rcases List.mem_append.mp hq with hq | hq
  · obtain ⟨x, hx⟩ := hknown p List.mem_cons_self target htarget q hq
    exact h.halfway.object_notMem hg ht hx hkept.1
  · exact h.halfway.prerequisite_notMem hg ht (mem_prerequisites htarget hq) hkept.1 hkept.2

/-- A target that has not been made, and is no directory, is missing or older than both builds. -/
theorem missing_or_before (h : g.Alike t u v project now as realized) (hg : g.Coherent)
    (ht : g.KeptApart t project) (hfiles : t.FilesBefore now) (hp : p ∈ g.targets.keys)
    (hnew : p ∉ realized) (hmade : ∀ m, u.entry? (t.place (project / p)) ≠ some (.directory m)) :
    Missing v project p ∨ ∃ m, v.time? (project / p) = some m ∧ m < now := by
  have hoff := h.halfway.target_notMem hg ht hp hnew
  unfold Missing
  cases hm : v.time? (project / p) with
  | none => exact .inl rfl
  | some m =>
    right
    obtain ⟨e, he, rfl⟩ := FileTree.time?_eq_some.mp hm
    rw [h.stat_eq hoff] at he
    have he := (FileTree.stat_eq_ok.mp he).2
    rw [h.halfway.evolves.place_eq] at he
    cases e with
    | directory m => exact absurd he (hmade m)
    | file bytes m =>
      rcases h.halfway.evolves.kept _ hoff with hkept | ⟨-, -, hdir⟩
      · exact ⟨m, rfl, hfiles _ bytes m (hkept ▸ he)⟩
      · simp [hdir] at he

/-- Whether a target is stale is told alike: an input that was made before, and not in this build, is newer
than the target that has to be made again. -/
theorem targetIsStale (h : g.Alike t u v project now as realized) (hg : g.Coherent)
    (ht : g.KeptApart t project) (hfiles : t.FilesBefore now) (hp : p ∈ g.targets.keys)
    (hnew : p ∉ realized) (hknown : g.ObjectsKnown [p]) {a : TargetAction} {b : Bool}
    (ha : g.targetActions.find? p = some a)
    (hb : targetIsStale u project a (as.map (·.object.path) ++ realized) = .ok b)
    (hmade : b = true → ∀ m, u.entry? (t.place (project / p)) ≠ some (.directory m))
    {remade : List Path} (hremade : remade ⊆ as.map (·.object.path) ++ realized) :
    targetIsStale v project a remade = .ok b := by
  obtain ⟨hpath, -⟩ := hg.targetAction p a ha
  have hself := h.stat_eq (h.halfway.target_notMem hg ht hp hnew)
  have htime : v.time? (project / a.target) = u.time? (project / a.target) := by
    rw [hpath, FileTree.time?, FileTree.time?, hself]
  have hinput (q : Path) (hq : q ∈ a.inputs) := h.time?_input hg ht hknown ha hq
  obtain ⟨hthere, hstale⟩ := targetIsStale_eq_ok hb
  obtain ⟨made?, hlooked, -⟩ := bind_eq_ok.mp hb
  have hlooked' : modified? v project a.target = .ok made? := by
    rw [hpath] at hlooked ⊢
    rw [modified?, FileTree.modified?, hself]
    exact hlooked
  refine targetIsStale_of_iff hb hlooked' (fun q hq ↦ ?_) ⟨?_, fun hcause ↦ ?_⟩
  · by_cases hkept : q ∈ as.map (·.object.path) ++ realized
    · obtain ⟨m, hm, -⟩ := h.newer q hkept
      simp [Missing, hm]
    · rw [Missing, hinput q hq hkept]
      exact hthere q hq
  · rintro (hmissing | ⟨q, hq, hmem | ⟨m, m', hm, hm', hlt⟩⟩)
    · exact .inl (htime.symm.trans hmissing)
    · exact .inr ⟨q, hq, .inl (hremade hmem)⟩
    · by_cases hkept : q ∈ as.map (·.object.path) ++ realized
      · exact .inr ⟨q, hq, .inl hkept⟩
      · exact .inr ⟨q, hq, .inr ⟨m, m', htime ▸ hm, hinput q hq hkept ▸ hm', hlt⟩⟩
  · have hold := h.missing_or_before hg ht hfiles hp hnew (hmade (hstale.mpr hcause))
    rw [← hpath] at hold
    rcases hold with hmissing | ⟨m, hm, hlt⟩
    · exact .inl hmissing
    · rcases hcause with hmissing | ⟨q, hq, hcause⟩
      · exact .inl (htime.trans hmissing)
      · by_cases hkept : q ∈ as.map (·.object.path) ++ realized
        · obtain ⟨m', hm', hle⟩ := h.newer q hkept
          refine .inr ⟨q, hq, .inr ⟨m, m', hm, hm', ?_⟩⟩
          rw [Timestamp.lt_iff] at hlt ⊢
          rw [Timestamp.le_iff] at hle
          omega
        · obtain ⟨m₁, m', hm₁, hm', hlt'⟩ := hcause.resolve_left hkept
          exact .inr ⟨q, hq, .inr ⟨m₁, m', htime.trans hm₁, (hinput q hq hkept).trans hm', hlt'⟩⟩

/-- Targets go on to be made alike. -/
theorem realizesAll (hg : g.Coherent) (ht : g.KeptApart t o.project)
    (htools : o.tools.Obeys g o.project now) (hlater : tools.Obeys g o.project later)
    (hle : now ≤ later) (hagree : o.tools.Agrees tools) (hfiles : t.FilesBefore now)
    (hactions : g'.targetActions = g.targetActions) (resumed : BuildResult) {result result' : BuildResult}
    {done ps : List Path} {commands : List (List String)}
    (hr : RealizesAll g o result ps u result' u' commands)
    (h : g.Alike t u v o.project now as result.realized)
    (hcompiled : result.compiled = as.map (·.object.path))
    (hremade : resumed.compiled ++ resumed.realized ⊆ result.compiled ++ result.realized)
    (hready : g.ReadyOrder done ps) (hdone : result.realized ⊆ done) (hknown : g.ObjectsKnown ps) :
    ∃ resumed' v', RealizesAll g' { o with tools } resumed ps v resumed' v' commands ∧
      u'.SameContents v' := by
  induction hr generalizing resumed done v with
  | done => exact ⟨resumed, v, .done, h.contents⟩
  | made action isStale first rest ih =>
    next result result' p ps a u u₁ u' command commands =>
    obtain ⟨hnew, hcontains, -, hrest⟩ := hready
    have hkey := (Table.contains_iff_mem_keys ..).mp hcontains
    have hnew' : p ∉ result.realized := fun hmem ↦ hnew (hdone hmem)
    have hfirst : g.ObjectsKnown [p] := fun q hq ↦
      hknown q (List.mem_singleton.mp hq ▸ List.mem_cons_self)
    rw [hcompiled] at isStale hremade
    have hmade : ∀ m, u.entry? (t.place (o.project / p)) ≠ some (.directory m) := by
      intro m hm
      obtain ⟨hev, bytes, hstat⟩ := evolves_realizes hg htools (h.halfway.wellFormed ht) action
        (ht.outputs.isStraight p (mem_outputs_of_target hkey)) first
      have hfile := (FileTree.stat_eq_ok.mp hstat).2
      rw [hev.place_eq, h.halfway.evolves.place_eq, hev.directory _ m hm] at hfile
      simp at hfile
    have isStale' := h.targetIsStale hg ht hfiles hkey hnew' hfirst action isStale (fun _ ↦ hmade) hremade
    obtain ⟨v₁, hfirst', h₁⟩ := h.realizes hg ht htools hlater hle hagree hkey hnew' action first
    obtain ⟨resumed', v', hrest', hcontents⟩ := ih { resumed with realized := resumed.realized ++ [p] }
      h₁ hcompiled (by
        rw [hcompiled, ← List.append_assoc, ← List.append_assoc]
        exact List.append_subset.mpr ⟨List.subset_append_of_subset_left _ hremade,
          List.subset_append_right ..⟩)
      hrest
      (List.append_subset.mpr ⟨List.subset_append_of_subset_left _ hdone, List.subset_append_right ..⟩)
      fun q hq ↦ hknown q (List.mem_cons_of_mem _ hq)
    exact ⟨resumed', v', .made (hactions ▸ action) isStale' hfirst' hrest', hcontents⟩
  | kept action isFresh rest ih =>
    next result result' p ps a u u' commands =>
    obtain ⟨hnew, hcontains, -, hrest⟩ := hready
    have hkey := (Table.contains_iff_mem_keys ..).mp hcontains
    have hnew' : p ∉ result.realized := fun hmem ↦ hnew (hdone hmem)
    have hfirst : g.ObjectsKnown [p] := fun q hq ↦
      hknown q (List.mem_singleton.mp hq ▸ List.mem_cons_self)
    rw [hcompiled] at isFresh hremade
    have isFresh' := h.targetIsStale hg ht hfiles hkey hnew' hfirst action isFresh
      (fun hfalse ↦ by simp at hfalse) hremade
    obtain ⟨resumed', v', hrest', hcontents⟩ := ih { resumed with upToDate := resumed.upToDate ++ [p] }
      h hcompiled (by rwa [hcompiled]) hrest (List.subset_append_of_subset_left _ hdone)
      fun q hq ↦ hknown q (List.mem_cons_of_mem _ hq)
    exact ⟨resumed', v', .kept (hactions ▸ action) isFresh' hrest', hcontents⟩

end Alike

end Graph

end ModuleBuild
