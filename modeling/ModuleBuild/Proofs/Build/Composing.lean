import ModuleBuild.Proofs.Build.Cycles
import ModuleBuild.Proofs.Build.HeadStart
import ModuleBuild.Proofs.Build.Revisit

/-!
# Builds in two parts

A build of some goals and a later one of all targets do together what one build of all targets would have done
(`build_composed`). That all can be built shows that each part can be (`Builds.exists_part`, `Builds.exists_rest`). The
first part compiles what its targets need (`Builds.mem_compiled_iff`) and is a head start for the second
(`Builds.headStart`): that one judges the objects again, with the project resolved again, and picks those that are left
(`Revisited.judges_remaining`), and of the targets it makes those that have not been made.
-/

namespace ModuleBuild

open FileTree

/-- Two lists that split a third one are, one after another, a permutation of it. -/
theorem append_perm_of_split {α : Type} {xs ys zs : List α} (hx : xs.Nodup) (hy : ys.Nodup) (hz : zs.Nodup)
    (hsubset : xs ⊆ zs) (h : ∀ a, a ∈ ys ↔ a ∈ zs ∧ a ∉ xs) : (xs ++ ys).Nodup ∧ (xs ++ ys).Perm zs := by
  have hnodup : (xs ++ ys).Nodup :=
    List.nodup_append.mpr ⟨hx, hy, fun a ha b hb heq ↦ ((h b).mp hb).2 (heq ▸ ha)⟩
  refine ⟨hnodup, (List.perm_ext_iff_of_nodup hnodup hz).mpr fun a ↦ ?_⟩
  rw [List.mem_append, h]
  refine ⟨fun hmem ↦ hmem.elim (fun ha ↦ hsubset ha) And.left, fun ha ↦ ?_⟩
  by_cases hmem : a ∈ xs
  · exact .inl hmem
  · exact .inr ⟨ha, hmem⟩

namespace Graph

variable {g g' : Graph} {o : BuildOptions} {project : Path} {now : Timestamp} {t t₁ t' u : FileTree}
  {as as₁ : List CompileAction} {ps qs rs order goals : List Path} {p q : Path}

/-- Going through targets does not hang on the rest of the graph. -/
theorem RealizesAll.of_targetActions_eq {result result' : BuildResult} {commands : List (List String)}
    (h : RealizesAll g o result ps t result' t' commands) (heq : g'.targetActions = g.targetActions) :
    RealizesAll g' o result ps t result' t' commands := by
  induction h with
  | done => exact .done
  | made action isStale first _ ih => exact .made (heq ▸ action) isStale first ih
  | kept action isFresh _ ih => exact .kept (heq ▸ action) isFresh ih

/-- The compiles that are left when the objects of others have been compiled. -/
def remaining (as as₁ : List CompileAction) : List CompileAction :=
  as.filter fun a ↦ a.object.path ∉ as₁.map (·.object.path)

theorem mem_remaining {a : CompileAction} :
    a ∈ remaining as as₁ ↔ a ∈ as ∧ a.object.path ∉ as₁.map (·.object.path) := by
  simp only [remaining, List.mem_filter, decide_eq_true_iff]

theorem mem_map_remaining : q ∈ (remaining as as₁).map (·.object.path) ↔
    q ∈ as.map (·.object.path) ∧ q ∉ as₁.map (·.object.path) := by
  constructor
  · intro hq
    obtain ⟨a, ha, rfl⟩ := List.mem_map.mp hq
    obtain ⟨ha, hnot⟩ := mem_remaining.mp ha
    exact ⟨List.mem_map_of_mem ha, hnot⟩
  · rintro ⟨hq, hnot⟩
    obtain ⟨a, ha, rfl⟩ := List.mem_map.mp hq
    exact List.mem_map_of_mem (mem_remaining.mpr ⟨ha, hnot⟩)

/-- Judging again picks out the stale objects that have not been compiled in the meantime. -/
theorem Judges.rest (h : Judges g t project qs as) (hg : g.Coherent)
    (hactions : g'.compileActions = g.compileActions)
    (hdone : ∀ q ∈ qs, ∀ a v, g.compileActions.find? q = some a → g.judge t project a.object = .ok v →
      q ∈ as₁.map (·.object.path) ∨ v.isStale = false → g'.judge t' project a.object = .ok .fresh)
    (hpending : ∀ q ∈ qs, ∀ a v, g.compileActions.find? q = some a → g.judge t project a.object = .ok v →
      q ∉ as₁.map (·.object.path) → v.isStale = true → g'.judge t' project a.object = .ok v) :
    Judges g' t' project qs (remaining as as₁) := by
  induction h with
  | nil => exact .nil
  | @stale q qs a as v action verdict isStale rest ih =>
    rw [List.forall_mem_cons] at hdone hpending
    have hrest := ih hdone.2 hpending.2
    obtain ⟨hpath, -⟩ := hg.compileAction q a action
    -- what was stale has been compiled in the meantime, or it is stale still
    by_cases hmem : a.object.path ∈ as₁.map (·.object.path)
    · rw [remaining, List.filter_cons_of_neg (by simpa using hmem)]
      exact .fresh (hactions ▸ action) (hdone.1 _ _ action verdict (.inl (hpath ▸ hmem))) rfl hrest
    · rw [remaining, List.filter_cons_of_pos (by simpa using hmem)]
      exact .stale (hactions ▸ action) (hpending.1 _ _ action verdict (hpath ▸ hmem) isStale) isStale hrest
  | fresh action verdict isFresh rest ih =>
    rw [List.forall_mem_cons] at hdone hpending
    exact .fresh (hactions ▸ action) (hdone.1 _ _ action verdict (.inr isFresh)) rfl (ih hdone.2 hpending.2)

/-- Where objects are judged, some of them are. -/
theorem Judges.of_subset (h : Judges g t o.project qs as) (hg : g.Coherent) (hsubset : ps ⊆ qs) :
    ∃ as', Judges g t o.project ps as' := by
  have hverdict := (h.eq_filter hg).2.2
  rcases judges_or_error fun q hq ↦ (hverdict q (hsubset hq)).imp fun _ ha ↦ ha.1 with
    hjudges | ⟨q, hq, a, f, ha, hf, -⟩
  · exact hjudges
  · obtain ⟨a', ha', v, hv⟩ := hverdict q (hsubset hq)
    obtain rfl := Option.some.inj (ha.symm.trans ha')
    cases hf.symm.trans hv

/-- What is stale and judged is picked out. -/
theorem Judges.mem_iff (h : Judges g t project qs as) (hg : g.Coherent) :
    q ∈ as.map (·.object.path) ↔ q ∈ qs ∧ g.IsStaleObject t project q := by
  classical
  rw [(h.eq_filter hg).1, List.mem_filter, decide_eq_true_iff]

/-- What could be made but has not been is looked up as before. -/
theorem Advances.modified?_eq_ok (h : g.Advances project rs t u) (hrs : rs ⊆ ps) (haside : g.Aside t project ps)
    (ht : Creatable t project ps) (hq : q ∈ ps)
    (hoff : t.place (project / q) ∉ places t project rs ∪ g.beside t project) {m? : Option Timestamp}
    (hm : t.modified? (project / q) = .ok m?) : u.modified? (project / q) = .ok m? := by
  have hopens := (h.creatable hrs haside ht).opens q hq
  refine FileTree.modified?_eq_ok.mpr ?_
  rcases FileTree.modified?_eq_ok.mp hm with ⟨e, he, rfl⟩ | ⟨-, rfl⟩
  · exact .inl ⟨e, h.stat_eq_ok hoff he, rfl⟩
  · have hnone : t.entry? (t.place (project / q)) = none :=
      (missing_iff_of_opens ht.wellFormed (ht.opens q hq)).mp (eq_time?_of_modified? hm).symm
    refine .inr ⟨hopens.stat_eq_notFound ?_, rfl⟩
    rw [h.place_eq]
    exact Grows.entry?_eq_none h hnone hoff fun ⟨r, hr, habove⟩ ↦ ht.apart q hq r (hrs hr) habove

/-- After work on outputs the files of a graph are different files still. -/
theorem LaidOut.of_advances (ht : g.LaidOut t project) (h : g.Advances project rs t u) : g.LaidOut u project where
  toKeptApart := ht.toKeptApart.of_touches h.toTouches
  directories := by
    intro p hp q hq
    rw [h.place_eq, h.place_eq]
    intro habove
    refine h.stays _ ?_ (ht.directories p hp q hq habove)
    rintro ⟨x, hx, hbeside⟩
    rcases List.mem_append.mp hp with hp | hp
    · exact ht.outputs.notBeside p hp x hx hbeside
    · exact ht.prerequisites.notBeside p hp x hx hbeside

open Classical in
/-- What has been made is told by the tree at the start. -/
theorem realized_eq_filter (hg : g.Coherent) (ht : g.LaidOut t o.project) (htools : o.tools.Obeys g o.project now)
    {result : BuildResult} {mid : FileTree} {compiles realizes : List (List String)}
    (haction : ∀ a ∈ as, g.compileActions.find? a.object.path = some a) (hcompiles : CompilesAll o as t mid compiles)
    (hrealizes : RealizesAll g o { compiled := as.map (·.object.path) } order mid result t' realizes)
    (hready : g.ReadyOrder [] order) (hjudged : ∀ p ∈ order, ∀ target, g.targets.find? p = some target →
      ∀ q ∈ target.objects, g.IsJudged t o.project (as.map (·.object.path)) q) :
    result.compiled = as.map (·.object.path) ∧
      result.realized = order.filter fun p ↦ g.IsRemade t o.project (as.map (·.object.path)) p := by
  obtain ⟨hcompiled, hrealized, -⟩ := realizesAll_eq_filter hg ht htools hrealizes
    (.compilesAll hg ht.toKeptApart htools haction hcompiles) rfl hready hjudged rfl rfl
  exact ⟨hcompiled, hrealized⟩

/-- What targets that goals lead to are made from is, if it is among some objects, an object of such a target. -/
def Inside (g : Graph) (goals compiled : List Path) : Prop :=
  ∀ p, g.Leads goals p → ∀ x, g.targets.find? p = some x → ∀ q ∈ x.prereqs, q ∈ compiled →
    ∃ p', g.Leads goals p' ∧ q ∈ g.objectsAt p'

theorem Feasible.mono {compiled compiled' targets : List Path} (h : g.Feasible t project compiled targets ps)
    (hsubset : compiled' ⊆ compiled) : g.Feasible t project compiled' targets ps where
  toCreatable := h.toCreatable
  aside := h.aside
  files := fun x hx hmem ↦ h.files x hx (hsubset hmem)
  texts := fun x hx hmem ↦ h.texts x hx (hsubset hmem)
  subset := h.subset

namespace Builds

variable {whole : List Path} {result : BuildResult} {mid : FileTree} {commands compiles realizes : List (List String)}

/-- A build of all targets goes through all of them. -/
theorem mem_order (h : Builds g o g.defaultGoals t result t' commands order as mid compiles realizes) (p : Path)
    (hp : g.targets.contains p) : p ∈ order :=
  (mem_targetOrder h.targetOrder).mpr ⟨p, (Table.contains_iff_mem_keys ..).mp hp, .refl⟩

section

variable (h : Builds g o whole t result t' commands order as mid compiles realizes) (hg : g.Coherent)
  (ht : g.LaidOut t o.project) (htools : o.tools.Obeys g o.project now)

include h hg

/-- The objects of targets that are gone through are compiled or there. -/
theorem isJudged : ∀ p ∈ order, ∀ target, g.targets.find? p = some target →
    ∀ q ∈ target.objects, g.IsJudged t o.project (as.map (·.object.path)) q := fun _ hp _ htarget _ hq ↦
  h.judges.isJudged hg (mem_objectsOf hp htarget hq)

include ht htools

/-- What a build makes is told by the tree at the start. -/
theorem mem_realized_iff :
    result.compiled = as.map (·.object.path) ∧ result.realized.Nodup ∧
      ∀ p, p ∈ result.realized ↔ p ∈ order ∧ g.IsRemade t o.project (as.map (·.object.path)) p := by
  have hready := readyOrder_of_targetOrder h.targetOrder
  obtain ⟨hcompiled, hrealized⟩ := realized_eq_filter hg ht htools (h.action hg) h.compilesAll h.realizesAll hready
    (h.isJudged hg)
  classical
  refine ⟨hcompiled, hrealized ▸ (hready.nodup List.nodup_nil).filter _, fun p ↦ ?_⟩
  rw [hrealized, List.mem_filter, decide_eq_true_iff]

/-- A target that is made was older than the build, if it was there. -/
theorem earlier_of_realized (hfiles : t.FilesBefore now) (hp : p ∈ result.realized) {m : Timestamp}
    (hm : t.time? (o.project / p) = some m) : m < now := by
  obtain ⟨e, he, rfl⟩ := time?_eq_some.mp hm
  obtain ⟨-, he⟩ := FileTree.stat_eq_ok.mp he
  cases e with
  | file bytes m => exact hfiles _ bytes m he
  | directory m =>
    -- it would be a directory still
    have hev := (h.halfway hg ht.toKeptApart htools).evolves
    obtain ⟨bytes, hfile⟩ := h.stat_made hg ht.toKeptApart htools p (List.mem_append_right _ hp)
    have hfile := (FileTree.stat_eq_ok.mp hfile).2
    rw [hev.place_eq, hev.directory _ m he] at hfile
    simp at hfile

/-- What targets are made from beside targets is compiled, or it was there. -/
theorem prerequisite_there (hlater : t.NoLater now) (hp : p ∈ order) {x : Target} (hx : g.targets.find? p = some x)
    (hq : q ∈ x.prereqs) :
    g.targets.contains q ∨ q ∈ as.map (·.object.path) ∨ ¬Missing t o.project q := by
  by_cases htarget : g.targets.contains q
  · exact .inl htarget
  by_cases hcompiled : q ∈ as.map (·.object.path)
  · exact .inr (.inl hcompiled)
  have hhalf := h.halfway hg ht.toKeptApart htools
  have hnot : q ∉ result.realized := fun hmem ↦
    htarget ((Table.contains_iff_mem_keys ..).mpr (hhalf.isTarget q hmem))
  obtain ⟨a, ha⟩ := hg.exists_targetAction ((Table.contains_iff_mem_keys ..).mpr (h.mem_keys p hp))
  obtain ⟨rfl, x', hx', -, hprereqs⟩ := hg.targetAction p a ha
  obtain rfl := Option.some.inj (hx.symm.trans hx')
  obtain ⟨_, -, hinputs⟩ := h.settled hg ht.toKeptApart htools hlater a.target hp a ha
  obtain ⟨m, hm, -⟩ := hinputs q (List.mem_append_right _ (hprereqs ▸ hq))
  rw [Missing, ← hhalf.time?_prerequisite hg ht (mem_prerequisites hx hq) hcompiled hnot, hm]
  exact .inr (.inr (by simp))

end

variable (h : Builds g o whole t result t' commands order as mid compiles realizes) (hg : g.Coherent)
  (ht : g.LaidOut t o.project) (htools : o.tools.Obeys g o.project now) (hlater : t.NoLater now)
  (hwhole : ∀ p, g.targets.contains p → p ∈ order) (hinside : g.Inside goals (as.map (·.object.path)))

include h hg ht htools hlater hwhole hinside

/-- Where all targets can be built, so can some of them. -/
theorem exists_part (hdelivers : o.tools.Delivers g o.project)
    (hroom : g.RoomBeside t o.project (as.map (·.object.path)))
    (hgoals : ∀ goal ∈ goals, g.targets.contains goal) :
    ∃ part t₁ commands₁ order₁ as₁ mid₁ compiles₁ realizes₁,
      Builds g o goals t part t₁ commands₁ order₁ as₁ mid₁ compiles₁ realizes₁ := by
  obtain ⟨order₁, horder⟩ : ∃ order₁, g.targetOrder goals = .ok order₁ := by
    cases horder : g.targetOrder goals with
    | ok order₁ => exact ⟨order₁, rfl⟩
    | error e =>
      -- goals are targets, and a cycle would have ended the build of all targets
      rcases fault_of_targetOrder horder with ⟨p, -, ⟨goal, hgoal, hreach⟩, hcycle⟩ | ⟨p, hp, hundeclared, -⟩
      · obtain ⟨root, hroot, hreach'⟩ := (mem_targetOrder h.targetOrder).mp (hwhole goal (hgoals goal hgoal))
        exact absurd ⟨p, ⟨root, hroot, hreach'.trans hreach⟩, hcycle⟩ (not_hasCycle_of_targetOrder h.targetOrder)
      · exact absurd (hgoals p hp) hundeclared
  have hready := readyOrder_of_targetOrder horder
  have hsubset : order₁ ⊆ order := fun p hp ↦ hwhole p (hready.isTarget p hp)
  have hobjects : g.objectsOf order₁ ⊆ g.objectsOf order := by
    intro q hq
    obtain ⟨p, hp, hq⟩ := mem_objectsOf_iff.mp hq
    exact mem_objectsOf_iff.mpr ⟨p, hsubset hp, hq⟩
  obtain ⟨as₁, hjudges⟩ := h.judges.of_subset hg hobjects
  have hcompiled : as₁.map (·.object.path) ⊆ as.map (·.object.path) := by
    intro q hq
    obtain ⟨hneeded, hstale⟩ := (hjudges.mem_iff hg).mp hq
    exact (h.judges.mem_iff hg).mpr ⟨hobjects hneeded, hstale⟩
  obtain ⟨ps, hfeasible⟩ := h.exists_feasible hg ht.toKeptApart hdelivers htools hroom
  obtain ⟨-, -, hrealized⟩ := h.mem_realized_iff hg ht htools
  have hprovided : ∀ p ∈ order₁, g.Provided t o.project (as₁.map (·.object.path)) result.realized p := by
    refine fun p hp ↦ ⟨fun x hx q hq ↦ hjudges.isJudged hg (mem_objectsOf hp hx hq), fun x hx q hq ↦ ?_,
      fun hremade ↦ ?_⟩
    · refine (h.prerequisite_there hg ht htools hlater (hsubset hp) hx hq).imp_right (Or.imp_left fun hmem ↦ ?_)
      -- a compile that the target waits for must be one of this part
      obtain ⟨p', hleads, hobject⟩ := hinside p ((mem_targetOrder horder).mp hp) x hx q hq hmem
      refine (hjudges.mem_iff hg).mpr ⟨?_, ((h.judges.mem_iff hg).mp hmem).2⟩
      exact mem_objectsOf_iff.mpr ⟨p', (mem_targetOrder horder).mpr hleads, hobject⟩
    · exact (hrealized p).mpr ⟨hsubset hp, hremade.mono hcompiled⟩
  obtain ⟨mid₁, compiles₁, part, t₁, realizes₁, hcompiles, hrealizes⟩ :=
    exists_realizesAll_of_feasible hg ht htools hdelivers (hfeasible.mono hcompiled) (hjudges.eq_filter hg).2.1
      (hjudges.nodup hg) hready hprovided
  refine ⟨part, t₁, _, order₁, as₁, mid₁, compiles₁, realizes₁, horder, hjudges, ?_, hcompiles, hrealizes, rfl⟩
  refine h.jobs.imp_left fun hnil ↦ ?_
  rw [hnil, List.map_nil] at hcompiled
  exact List.map_eq_nil_iff.mp (List.subset_nil.mp hcompiled)

variable {part : BuildResult} {t₁ mid₁ : FileTree} {commands₁ compiles₁ realizes₁ : List (List String)}
  {order₁ : List Path}
  (h₁ : Builds g o goals t part t₁ commands₁ order₁ as₁ mid₁ compiles₁ realizes₁)

include h₁

omit ht htools hlater hinside in
/-- A build of some goals compiles what their targets need of what a build of all targets compiles. -/
theorem mem_compiled_iff : q ∈ as₁.map (·.object.path) ↔ q ∈ g.objectsOf order₁ ∧ q ∈ as.map (·.object.path) := by
  rw [h₁.judges.mem_iff hg, h.judges.mem_iff hg]
  refine and_congr_right fun hneeded ↦ (and_iff_right ?_).symm
  obtain ⟨p, hp, hq⟩ := mem_objectsOf_iff.mp hneeded
  exact mem_objectsOf_iff.mpr ⟨p, hwhole p ((readyOrder_of_targetOrder h₁.targetOrder).isTarget p hp), hq⟩

omit hlater hinside in
/-- A build of some goals makes no targets but those that a build of all targets makes. -/
theorem realized_subset : part.realized ⊆ result.realized := by
  obtain ⟨-, -, hrealized⟩ := h.mem_realized_iff hg ht htools
  obtain ⟨-, -, hrealized₁⟩ := h₁.mem_realized_iff hg ht htools
  intro p hp
  have hremade := ((hrealized₁ p).mp hp).2
  exact (hrealized p).mpr ⟨hwhole p hremade.isTarget, hremade.mono fun q hq ↦
    ((h.mem_compiled_iff hg hwhole h₁).mp hq).2⟩

/-- A build of some goals is a head start for a build of all targets. -/
theorem headStart (hfiles : t.FilesBefore now) : g.HeadStart t t₁ o.project now order₁ (as₁.map (·.object.path))
    part.realized (as.map (·.object.path)) := by
  have hready := readyOrder_of_targetOrder h₁.targetOrder
  have hmem (q : Path) := h.mem_compiled_iff hg hwhole h₁ (q := q)
  have hhalf := h₁.halfway hg ht.toKeptApart htools
  obtain ⟨-, -, hrealized⟩ := h.mem_realized_iff hg ht htools
  obtain ⟨-, -, hrealized₁⟩ := h₁.mem_realized_iff hg ht htools
  have hjudged {p : Path} {x : Target} (hx : g.targets.find? p = some x) {q : Path} (hq : q ∈ x.objects) :
      g.IsJudged t o.project (as.map (·.object.path)) q :=
    h.isJudged hg p (hwhole p (Option.isSome_iff_exists.mpr ⟨x, hx⟩)) x hx q hq
  have hobject {p : Path} {x : Target} (hx : g.targets.find? p = some x) {q : Path} (hq : q ∈ x.objects) :
      ∃ y, g.objects.find? q = some y := by
    rcases hjudged hx hq with hcompiled | ⟨y, e, hy, -⟩
    · obtain ⟨a, ha, rfl⟩ := List.mem_map.mp hcompiled
      exact ⟨_, (hg.compileAction _ a (h.action hg a ha)).2⟩
    · exact ⟨y, hy⟩
  exact {
    closed := fun p hp q hneeds ↦ by simpa using hready.mem_of_needs hp hneeds
    subset := fun q hq ↦ ((hmem q).mp hq).2
    inside := by
      intro p hp x hx q hq hall
      refine (hmem q).mpr ⟨?_, hall⟩
      rcases List.mem_append.mp hq with hq | hq
      · exact mem_objectsOf hp hx hq
      · obtain ⟨p', hleads, hq'⟩ := hinside p ((mem_targetOrder h₁.targetOrder).mp hp) x hx q hq hall
        exact mem_objectsOf_iff.mpr ⟨p', (mem_targetOrder h₁.targetOrder).mpr hleads, hq'⟩
    realized_iff := hrealized₁
    needs := by
      intro p x hx q hq hmade
      have hkey := hhalf.isTarget q hmade
      rcases List.mem_append.mp hq with hq | hq
      · obtain ⟨y, hy⟩ := hobject hx hq
        exact absurd rfl (ht.outputs.ne hy hkey)
      · exact ⟨x, hx, hq, (Table.contains_iff_mem_keys ..).mpr hkey⟩
    made := h₁.time?_made hg ht.toKeptApart htools
    settled := by
      intro p hp x hx
      obtain ⟨a, ha⟩ := hg.exists_targetAction (Option.isSome_iff_exists.mpr ⟨x, hx⟩)
      obtain ⟨rfl, x', hx', hobjects, hprereqs⟩ := hg.targetAction p a ha
      obtain rfl := Option.some.inj (hx.symm.trans hx')
      obtain ⟨m, hm, hinputs⟩ := h₁.settled hg ht.toKeptApart htools hlater a.target hp a ha
      rw [TargetAction.inputs, hobjects, hprereqs] at hinputs
      refine ⟨by simp [Missing, hm], ?_⟩
      rintro q hq ⟨n, n', hn, hn', hlt⟩
      obtain ⟨m', hm', hnot⟩ := hinputs q hq
      obtain rfl := Option.some.inj (hm.symm.trans hn)
      obtain rfl := Option.some.inj (hm'.symm.trans hn')
      exact hnot hlt
    target := fun p x hx hnot ↦ hhalf.time?_target hg ht (Table.mem_keys_of_find? hx) hnot
    input := by
      intro p x hx q hq hall hnot
      have hcompiled : q ∉ as₁.map (·.object.path) := fun hmem' ↦ hall ((hmem q).mp hmem').2
      rcases List.mem_append.mp hq with hq | hq
      · obtain hmem' | ⟨y, e, hy, he⟩ := hjudged hx hq
        · exact absurd hmem' hall
        · have he' := hhalf.stat_object hg ht.toKeptApart hy hcompiled he
          rw [time?_eq_some.mpr ⟨e, he, rfl⟩, time?_eq_some.mpr ⟨e, he', rfl⟩]
      · exact hhalf.time?_prerequisite hg ht (mem_prerequisites hx hq) hcompiled hnot
    earlier := by
      intro p hremade m hm
      have hmade := (hrealized p).mpr ⟨hwhole p hremade.isTarget, hremade⟩
      exact h.earlier_of_realized hg ht htools hfiles hmade hm }

/-- After a build of some goals every target is provided for in the rest. -/
theorem provided_rest (hfiles : t.FilesBefore now) (hp : p ∈ order) :
    g.Provided t₁ o.project ((remaining as as₁).map (·.object.path)) result.realized p := by
  have hstart := h.headStart hg ht htools hlater hwhole hinside h₁ hfiles
  have hhalf := h₁.halfway hg ht.toKeptApart htools
  obtain ⟨-, -, hrealized⟩ := h.mem_realized_iff hg ht htools
  have hiff := hstart.isRemade_rest_iff (p := p) fun q ↦ mem_map_remaining
  refine ⟨fun x hx q hq ↦ ?_, fun x hx q hq ↦ ?_, fun hremade ↦ (hrealized p).mpr ⟨hp, (hiff.mp hremade).1⟩⟩
  · by_cases hcompiled : q ∈ as₁.map (·.object.path)
    · obtain ⟨bytes, hstat⟩ := h₁.stat_made hg ht.toKeptApart htools q (List.mem_append_left _ hcompiled)
      obtain ⟨a, ha, rfl⟩ := List.mem_map.mp hcompiled
      exact .inr ⟨a.object, _, (hg.compileAction _ a (h₁.action hg a ha)).2, hstat⟩
    · rcases h.isJudged hg p hp x hx q hq with hall | ⟨y, e, hy, he⟩
      · exact .inl (mem_map_remaining.mpr ⟨hall, hcompiled⟩)
      · exact .inr ⟨y, e, hy, hhalf.stat_object hg ht.toKeptApart hy hcompiled he⟩
  · by_cases htarget : g.targets.contains q
    · exact .inl htarget
    by_cases hcompiled : q ∈ as₁.map (·.object.path)
    · exact .inr (.inr (by simp [Missing, hstart.made q (List.mem_append_left _ hcompiled)]))
    · have hnot : q ∉ part.realized := fun hmem ↦
        htarget ((Table.contains_iff_mem_keys ..).mpr (hhalf.isTarget q hmem))
      rw [Missing, hhalf.time?_prerequisite hg ht (mem_prerequisites hx hq) hcompiled hnot]
      exact (h.prerequisite_there hg ht htools hlater hp hx hq).imp_right
        (Or.imp_left fun hall ↦ mem_map_remaining.mpr ⟨hall, hcompiled⟩)

variable (hdelivers : o.tools.Delivers g o.project) (hroom : g.RoomBeside t o.project (as.map (·.object.path)))

include hdelivers hroom

omit hlater hinside in
/-- After a build of some goals the rest can still be made, and objects that have not been compiled are looked up as
before. -/
theorem feasible_rest :
    ∃ ps, g.Feasible t₁ o.project ((remaining as as₁).map (·.object.path))
        result.realized ps ∧
      ∀ q ∈ as.map (·.object.path), q ∉ as₁.map (·.object.path) → ∀ m?,
        t.modified? (o.project / q) = .ok m? → t₁.modified? (o.project / q) = .ok m? := by
  have hadvances := h₁.advances hg ht.toKeptApart hdelivers
  have hhalf := h₁.halfway hg ht.toKeptApart htools
  obtain ⟨ps, hfeasible⟩ := h.exists_feasible hg ht.toKeptApart hdelivers htools hroom
  have hx {a : CompileAction} (ha : a ∈ as) : g.objects.find? a.object.path = some a.object :=
    (hg.compileAction _ a (h.action hg a ha)).2
  have hmem {a : CompileAction} (ha : a ∈ as) : a.object.path ∈ ps :=
    (hfeasible.files _ (mem_values_of_object (hx ha)) (List.mem_map_of_mem ha)).1
  have hrs : as₁.map (·.object.path) ++ part.realized ⊆ ps := by
    have hsubset := h.realized_subset hg ht htools hwhole h₁
    refine List.append_subset.mpr ⟨fun q hq ↦ ?_, fun p hp ↦ hfeasible.subset (hsubset hp)⟩
    obtain ⟨a, ha, rfl⟩ := List.mem_map.mp ((h.mem_compiled_iff hg hwhole h₁).mp hq).2
    exact hmem ha
  refine ⟨ps, ⟨hadvances.creatable hrs hfeasible.aside hfeasible.toCreatable, hadvances.aside hfeasible.aside,
    fun x hx hmem ↦ hfeasible.files x hx (mem_map_remaining.mp hmem).1, fun x hx hmem ↦ ?_, hfeasible.subset⟩,
    fun q hq hnot m? hm ↦ ?_⟩
  · refine (hfeasible.texts x hx (mem_map_remaining.mp hmem).1).of_touches hhalf.evolves.toTouches fun q hq ↦ ?_
    exact hhalf.byproducts_notMem hg ht.toKeptApart (hg.find?_of_mem hx) (mem_map_remaining.mp hmem).2 _
      (ObjectRecord.mem_byproducts.mpr ⟨q, .inr hq, rfl⟩)
  · obtain ⟨a, ha, rfl⟩ := List.mem_map.mp hq
    refine hadvances.modified?_eq_ok hrs hfeasible.aside hfeasible.toCreatable (hmem ha) ?_ hm
    rintro (⟨q, hq, heq⟩ | ⟨x, hx', hbeside⟩)
    · have hout := mem_outputs_of_object (hx ha)
      rcases List.mem_append.mp hq with hq | hq
      · obtain ⟨a', ha', rfl⟩ := List.mem_map.mp hq
        have hout' := mem_outputs_of_object (hg.compileAction _ a' (h₁.action hg a' ha')).2
        exact hnot (ht.outputs.eq_of_place_eq hout hout' heq ▸ hq)
      · have hkey := hhalf.isTarget q hq
        exact ht.outputs.ne (hx ha) hkey (ht.outputs.eq_of_place_eq hout (mem_outputs_of_target hkey) heq)
    · exact ht.outputs.object_notBeside hg (hx ha) (hg.find?_of_mem hx') hbeside

/-- After a build of some goals the others are built: what is made is the rest of what a build of all targets makes. -/
theorem exists_rest (hfiles : t.FilesBefore now) {tools : Toolchain} {later : Timestamp}
    (htools' : tools.Obeys g o.project later) (hdelivers' : tools.Delivers g o.project) :
    ∃ mid₂ compiles₂ rest t₂ realizes₂,
      CompilesAll { o with tools } (remaining as as₁) t₁ mid₂ compiles₂ ∧
      RealizesAll g { o with tools } { compiled := (remaining as as₁).map (·.object.path) } order mid₂ rest t₂
        realizes₂ ∧
      rest.compiled = (remaining as as₁).map (·.object.path) ∧
      rest.realized.Nodup ∧ ∀ p, p ∈ rest.realized ↔ p ∈ result.realized ∧ p ∉ part.realized := by
  obtain ⟨ps, hfeasible, -⟩ := h.feasible_rest hg ht htools hwhole h₁ hdelivers hroom
  have hstart := h.headStart hg ht htools hlater hwhole hinside h₁ hfiles
  have ht₁ : g.LaidOut t₁ o.project := ht.of_advances (h₁.advances hg ht.toKeptApart hdelivers)
  have hready := readyOrder_of_targetOrder h.targetOrder
  obtain ⟨-, -, hrealized⟩ := h.mem_realized_iff hg ht htools
  have haction : ∀ a ∈ remaining as as₁, g.compileActions.find? a.object.path = some a := fun a ha ↦
    h.action hg a (mem_remaining.mp ha).1
  have hnodup : ((remaining as as₁).map (·.object.path)).Nodup :=
    (h.nodup hg).sublist (List.filter_sublist.map _)
  have hprovided : ∀ p ∈ order, g.Provided t₁ o.project ((remaining as as₁).map (·.object.path)) result.realized p :=
    fun p hp ↦ h.provided_rest hg ht htools hlater hwhole hinside h₁ hfiles hp
  obtain ⟨mid₂, compiles₂, rest, t₂, realizes₂, hcompiles, hrealizes⟩ :=
    exists_realizesAll_of_feasible (o := { o with tools }) hg ht₁ htools' hdelivers' hfeasible haction hnodup hready
      hprovided
  obtain ⟨hcompiled, hrest⟩ := realized_eq_filter (o := { o with tools }) hg ht₁ htools' haction hcompiles hrealizes
    hready fun p hp ↦ (hprovided p hp).objects
  classical
  refine ⟨mid₂, compiles₂, rest, t₂, realizes₂, hcompiles, hrealizes, hcompiled,
    hrest ▸ (hready.nodup List.nodup_nil).filter _, fun p ↦ ?_⟩
  rw [hrest, List.mem_filter, decide_eq_true_iff, hstart.isRemade_rest_iff fun q ↦ mem_map_remaining, hrealized,
    hstart.realized_iff, and_assoc]
  refine and_congr_right fun _ ↦ and_congr_right fun hremade ↦ not_congr (and_iff_left_of_imp fun hp ↦ ?_).symm
  exact (hstart.isRemade_iff hp).mpr hremade

end Builds

end Graph

namespace Revisited

variable {p : Project} {r r' : Resolved} {t t₁ : FileTree} {now : Timestamp} {as as₁ : List CompileAction}
  {realized qs : List Path}

/-- After a build of some goals those objects are stale that were stale and have not been compiled. -/
theorem judges_remaining (h : Revisited p r r' t t₁ now as₁ realized)
    (hjudges : Graph.Judges r.graph t p.directory qs as) (hlater : t.NoLater now)
    (htime : ∀ q ∈ as₁.map (·.object.path), t₁.time? (p.directory / q) = some now)
    (hheaders : ∀ x ∈ r.graph.objects.values, ∀ q ∈ (r.graph.headers.find? x.path).getD [],
      ∃ m, t.time? (p.directory / q) = some m)
    (hheaders' : ∀ x ∈ r'.graph.objects.values, ∀ q ∈ (r'.graph.headers.find? x.path).getD [],
      ∃ m, t₁.time? (p.directory / q) = some m)
    (hself : ∀ q ∈ as.map (·.object.path), q ∉ as₁.map (·.object.path) → ∀ m?,
      t.modified? (p.directory / q) = .ok m? → t₁.modified? (p.directory / q) = .ok m?) :
    Graph.Judges r'.graph t₁ p.directory qs (Graph.remaining as as₁) := by
  have hg := h.coherent
  refine hjudges.rest hg h.compileActions_eq (fun q hq a v ha hv hwhy ↦ ?_) fun q hq a v ha hv hnot hstale ↦ ?_
  · obtain ⟨rfl, hobject⟩ := hg.compileAction q a ha
    have hx := Graph.mem_values_of_object hobject
    by_cases hmem : a.object.path ∈ as₁.map (·.object.path)
    · refine h.judge_of_compiled hlater hx (htime _ hmem) (Graph.exists_source_of_judge hv) fun q hq ↦ ?_
      obtain ⟨m, hm⟩ := hheaders' _ (h.objects_eq ▸ hx) q hq
      exact ⟨m, hm, (h.halfway.evolves.noLater hlater).le_of_time? hm⟩
    · refine h.judge_of_fresh hx hmem ((Graph.judge_isStale hv).not.mp ?_)
      simp [hwhy.resolve_left hmem]
  · obtain ⟨rfl, hobject⟩ := hg.compileAction q a ha
    have hx := Graph.mem_values_of_object hobject
    have hmem := (hjudges.mem_iff hg).mpr ⟨hq, a.object, hobject, (Graph.judge_isStale hv).mp hstale⟩
    exact h.judge_of_pending hx hnot hv (hheaders _ hx) (hself _ hmem hnot)

/-- After a build of some goals a build of all targets of the project resolved again makes the rest. -/
theorem exists_builds_rest {o : BuildOptions} {tools : Toolchain} {later : Timestamp} {goals order order₁ : List Path}
    {result part : BuildResult} {t' mid mid₁ : FileTree} {commands compiles realizes : List (List String)}
    {commands₁ compiles₁ realizes₁ : List (List String)} (h : Revisited p r r' t t₁ now as₁ part.realized)
    (hproject : o.project = p.directory)
    (hwhole : Graph.Builds r.graph o r.graph.defaultGoals t result t' commands order as mid compiles realizes)
    (hpart : Graph.Builds r.graph o goals t part t₁ commands₁ order₁ as₁ mid₁ compiles₁ realizes₁)
    (ht : r.graph.LaidOut t o.project) (htools : o.tools.Obeys r.graph o.project now)
    (hdelivers : o.tools.Delivers r.graph o.project) (htools' : tools.Obeys r.graph o.project later)
    (hdelivers' : tools.Delivers r.graph o.project) (hfiles : t.FilesBefore now) (hlater : t.NoLater now)
    (hroom : r.graph.RoomBeside t o.project (as.map (·.object.path)))
    (hinside : r.graph.Inside goals (as.map (·.object.path)))
    (hheaders : ∀ x ∈ r.graph.objects.values, ∀ q ∈ (r.graph.headers.find? x.path).getD [],
      ∃ m, t.time? (p.directory / q) = some m)
    (hheaders' : ∀ x ∈ r'.graph.objects.values, ∀ q ∈ (r'.graph.headers.find? x.path).getD [],
      ∃ m, t₁.time? (p.directory / q) = some m) :
    ∃ rest t₂ commands₂ mid₂ compiles₂ realizes₂,
      Graph.Builds r'.graph { o with tools } r'.graph.defaultGoals t₁ rest t₂ commands₂ order (Graph.remaining as as₁)
        mid₂ compiles₂ realizes₂ ∧
      ((part.compiled ++ rest.compiled).Nodup ∧ (part.compiled ++ rest.compiled).Perm result.compiled) ∧
      (part.realized ++ rest.realized).Nodup ∧ (part.realized ++ rest.realized).Perm result.realized := by
  have hg := h.coherent
  have hall := hwhole.mem_order
  obtain ⟨mid₂, compiles₂, rest, t₂, realizes₂, hcompiles, hrealizes, hcompiled₂, hnodup₂, hrest⟩ :=
    hwhole.exists_rest hg ht htools hlater hall hinside hpart hdelivers hroom hfiles htools' hdelivers'
  obtain ⟨-, -, hself⟩ := hwhole.feasible_rest hg ht htools hall hpart hdelivers hroom
  have htime := hpart.time?_made hg ht.toKeptApart htools
  have hjudged := hwhole.judges
  rw [hproject] at htime hself hjudged
  have hjudges := h.judges_remaining hjudged hlater (fun q hq ↦ htime q (List.mem_append_left _ hq)) hheaders hheaders'
    hself
  rw [← hproject, ← h.objectsOf_eq] at hjudges
  refine ⟨rest, t₂, _, mid₂, compiles₂, realizes₂, ⟨(h.targetOrder_eq none).trans hwhole.targetOrder, hjudges,
    hwhole.jobs.imp_left fun hnil ↦ by rw [hnil, Graph.remaining, List.filter_nil], hcompiles,
    hrealizes.of_targetActions_eq h.targetActions_eq, rfl⟩, ?_, ?_⟩
  · obtain ⟨hcompiled, -⟩ := hwhole.mem_realized_iff hg ht htools
    obtain ⟨hcompiled₁, -⟩ := hpart.mem_realized_iff hg ht htools
    rw [hcompiled, hcompiled₁, hcompiled₂]
    refine append_perm_of_split (hpart.nodup hg) ((hwhole.nodup hg).sublist (List.filter_sublist.map _))
      (hwhole.nodup hg) ?_ fun q ↦ Graph.mem_map_remaining
    exact fun q hq ↦ ((hwhole.mem_compiled_iff hg hall hpart).mp hq).2
  · obtain ⟨-, hnodup, -⟩ := hwhole.mem_realized_iff hg ht htools
    obtain ⟨-, hnodup₁, -⟩ := hpart.mem_realized_iff hg ht htools
    exact append_perm_of_split hnodup₁ hnodup₂ hnodup (hwhole.realized_subset hg ht htools hall hpart) hrest

end Revisited

/-! ### A project to build in parts -/

namespace Rehearsal

/-- A library, and a program that is made from the object of the library too. The program is older than its own object,
and the object of the library is stale. -/
def partedTree : FileTree := .ofFiles (.ofSeconds 100) [
  ("main.ini", "[module]\ntarget=app\nsources=a.c\nprereqs=build/lib/b.o\nsubmodules=lib", .ofSeconds 50),
  ("a.c", "", .ofSeconds 50),
  ("a.h", "", .ofSeconds 50),
  ("lib/module.ini", "[module]\ntarget=lib.a\nsources=b.c", .ofSeconds 50),
  ("lib/b.c", "", .ofSeconds 50),
  ("build/a.o", "", .ofSeconds 60),
  ("build/lib/b.o", "", .ofSeconds 40),
  ("app", "", .ofSeconds 55)]

/-- The graph of the project. -/
def partedGraph : Graph :=
  (⟨{}, [
    ⟨{ path := .ofString "main.ini", directory := .here, target := "app", sources := ["a.c"],
       prereqs := ["build/lib/b.o"], submodules := ["lib"] }, []⟩,
    ⟨{ path := .ofString "lib/module.ini", directory := .ofString "lib", target := "lib.a",
       sources := ["b.c"] }, []⟩]⟩ : Blueprint).graph

/-- How the project is built later. -/
def laterOptions : BuildOptions := { tools := { script with now := .ofSeconds 200 }.toolchain }

/-- What is left of the project when some of its targets have been built. -/
def partedRun (goals : List Path) : Run := ((partedGraph.build options (some goals)).run.run (start partedTree)).2

/-- The graph of the project when the headers of the library are known. -/
def partedAfter : Graph := { partedGraph with headers := ⟨[(.ofString "build/lib/b.o", [.ofString "a.h"])]⟩ }

/-- What a build of all targets compiles and makes. -/
def partedResult : BuildResult := ⟨[.ofString "build/lib/b.o"], [.ofString "app", .ofString "lib.a"], []⟩

/-- A project that is to be built in parts: all that this relies on can be computed, but for what targets are made from
beside their objects. -/
structure Parted (run : Run) (g : Graph) (result : BuildResult) : Prop where
  resolve : (({} : Project).resolve run.tree).2 = .ok ⟨g, {}⟩
  build : ∃ run', (g.build options none).run.run run = (.ok result, run')
  obeys : options.tools.Obeys g .here (.ofSeconds 100) ∧ laterOptions.tools.Obeys g .here (.ofSeconds 200)
  delivers : options.tools.Delivers g .here ∧ laterOptions.tools.Delivers g .here
  files : run.tree.FilesBefore (.ofSeconds 100) ∧ run.tree.NoLater (.ofSeconds 100)
  laidOut : g.LaidOut run.tree .here
  room : g.RoomBeside run.tree .here result.compiled
  inputs : g.InputsApart run.tree .here
  descriptors : ∀ d ∈ ({} : Project).descriptors run.tree, run.tree.place (.here / d) ∉ g.territory run.tree .here
  headers : ∀ x ∈ g.objects.values, ∀ q ∈ (g.headers.find? x.path).getD [],
    ∃ m, run.tree.time? (.here / q) = some m

set_option maxRecDepth 10000 in
theorem parted_start : Parted (start partedTree) partedGraph partedResult := by
  have hserves : script.Serves partedGraph ∧ { script with now := .ofSeconds 200 }.Serves partedGraph := by
    decide +kernel
  have hcommands : (∀ a ∈ partedGraph.compileActions.values, a.command.words?.isSome) ∧
      ∀ a ∈ partedGraph.targetActions.values, a.command.words?.isSome := by decide +kernel
  have hheaders : ∀ x ∈ partedGraph.objects.values, ∀ q ∈ (partedGraph.headers.find? x.path).getD [],
      ((start partedTree).tree.time? (.here / q)).isSome := by decide +kernel
  exact {
    resolve := toOption_eq_some.mp (by decide +kernel)
    build := ⟨_, run_eq_ok (by decide +kernel)⟩
    obeys := ⟨ToolScript.Serves.obeys_toolchain hserves.1, ToolScript.Serves.obeys_toolchain hserves.2⟩
    delivers := ⟨ToolScript.Serves.delivers_toolchain hserves.1 ⟨rfl, rfl, rfl⟩ hcommands.1 hcommands.2,
      ToolScript.Serves.delivers_toolchain hserves.2 ⟨rfl, rfl, rfl⟩ hcommands.1 hcommands.2⟩
    files := by decide +kernel
    laidOut := by decide +kernel
    room := by decide +kernel
    inputs := by decide +kernel
    descriptors := by decide +kernel
    headers := fun x hx q hq ↦ Option.isSome_iff_exists.mp (hheaders x hx q hq) }

end Rehearsal

namespace Graph

end Graph

end ModuleBuild
