import ModuleBuild.Proofs.Build.Cycles
import ModuleBuild.Proofs.Build.Foreseeing
import ModuleBuild.Proofs.Build.Lookups

/-!
# Faults of planning

What can go wrong in a build whose tools make all that they are asked for: a goal is no target, a target needs itself,
a source is missing, or a prerequisite is missing that nothing brings about (`PlanningFault`). Such a build fails
exactly if there is one of these faults, and it fails with one of them (`build_fails_iff`). Prerequisites are looked for
when the turn of their target comes, by which time a directory may have been made, or a file written under another name
(`missing_iff`).
-/

namespace ModuleBuild

namespace Graph

open FileTree RunM
open Relation (TransGen)

/-- Nothing is found at a path, and none of some outputs stands there or below. -/
def Unmet (t : FileTree) (project : Path) (made : List Path) (q : Path) : Prop :=
  Missing t project q ∧ ∀ r ∈ made, ¬t.place (project / q) <:+ t.place (project / r)

/-- What is at fault when a build cannot go on although its tools make all that they are asked for. -/
inductive PlanningFault (g : Graph) (t : FileTree) (project : Path) (goals : List Path) : BuildError → Prop where
  | goal {p : Path} (isGoal : p ∈ goals) (undeclared : ¬g.targets.contains p) :
      PlanningFault g t project goals (.unknownGoal p)
  | cycle {p : Path} (leads : g.Leads goals p) (needsItself : TransGen g.Needs p p) :
      PlanningFault g t project goals (.circular p)
  | source {p : Path} {x : ObjectRecord} (leads : g.Leads goals p) (needed : x.path ∈ g.objectsAt p)
      (object : x ∈ g.objects.values) (missing : Missing t project x.source) :
      PlanningFault g t project goals (.noRule x.source x.path)
  /-- The prerequisite is neither a target nor an object that is needed, and nothing that is made before the turn of its
  target comes stands there or below. -/
  | prerequisite {before after : List Path} {p q : Path} {x : Target}
      (order : g.targetOrder goals = .ok (before ++ p :: after)) (target : g.targets.find? p = some x)
      (needed : q ∈ x.prereqs) (undeclared : ¬g.targets.contains q)
      (noObject : q ∉ g.objectsOf (before ++ p :: after))
      (unmet : Unmet t project (g.objectsOf (before ++ p :: after) ++ before) q) :
      PlanningFault g t project goals (.noRule q p)

variable {g : Graph} {o : BuildOptions} {project : Path} {t u : FileTree} {ps rs order : List Path}
  {p q : Path}

/-! ### Looking up -/

/-- It can be told what is there of an object and of what it is made from. -/
theorem Foreseeable.exists_modified? (h : g.Foreseeable t project ps) (hg : g.Coherent)
    (hproducts : g.products = .ok ps) {x : ObjectRecord} (hx : x ∈ g.objects.values) :
    ∀ p ∈ x.path :: g.inputsOf x, ∃ m?, modified? t project p = .ok m? := by
  intro p hp
  rcases List.mem_cons.mp hp with rfl | hp
  · exact exists_modified?_of_opens h.wellFormed (h.opens _ (object_mem_products hg hproducts hx))
  · exact h.inputs x hx p hp

/-! ### Judging -/

/-- Where it can be told what is there, objects are judged, unless a source is missing. -/
theorem staleActions_of_modified? {qs : List Path} (h : ∀ q ∈ qs, ∃ a, g.compileActions.find? q = some a ∧
      ∀ p ∈ a.object.path :: g.inputsOf a.object, ∃ m?, modified? t o.project p = .ok m?) :
    (∃ as, Judges g t o.project qs as) ∨
      ∃ q ∈ qs, ∃ a, g.compileActions.find? q = some a ∧ Missing t o.project a.object.source ∧
        Runs (g.staleActions o qs) t [] (.error (.build (.noRule a.object.source a.object.path))) t := by
  rcases judges_or_error fun q hq ↦ (h q hq).imp fun _ ha ↦ ha.1 with hjudges | ⟨q, hq, a, f, ha, hf, hruns⟩
  · exact .inl hjudges
  · obtain ⟨a', ha', hasked⟩ := h q hq
    obtain rfl := Option.some.inj (ha.symm.trans ha')
    rcases judge_of_modified? hasked with ⟨-, v, hv⟩ | ⟨hmissing, herror⟩
    · cases hf.symm.trans hv
    · obtain rfl := Except.error.inj (hf.symm.trans herror)
      exact .inr ⟨q, hq, a, ha, hmissing, hruns⟩

/-- No source of objects that have been judged is missing. -/
theorem Judges.not_missing {qs : List Path} {as : List CompileAction} (h : Judges g t project qs as) (hg : g.Coherent)
    {x : ObjectRecord} (hx : x ∈ g.objects.values) (hmem : x.path ∈ qs) : ¬Missing t project x.source := by
  obtain ⟨a, ha, v, hv⟩ := (h.eq_filter hg).2.2 x.path hmem
  obtain ⟨-, hobject⟩ := hg.compileAction _ a ha
  obtain rfl := Option.some.inj ((hg.find?_of_mem hx).symm.trans hobject)
  obtain ⟨m, hm⟩ := exists_source_of_judge hv
  simp [Missing, hm]

/-- Objects that have been judged are there unless they are stale. -/
theorem Judges.entry?_ne_none_of_fresh {qs : List Path} {as : List CompileAction} (h : Judges g t project qs as)
    (hg : g.Coherent) {x : ObjectRecord} (hx : g.objects.find? q = some x) (hmem : q ∈ qs)
    (hfresh : q ∉ as.map (·.object.path)) : t.entry? (t.place (project / q)) ≠ none := by
  obtain rfl := (hg.object q x hx).1
  rw [(h.eq_filter hg).1] at hfresh
  have hstays : ¬g.IsStale t project x := fun hstale ↦
    hfresh (List.mem_filter.mpr ⟨hmem, by simpa using ⟨x, hx, hstale⟩⟩)
  obtain ⟨m, hm, -⟩ := exists_of_not_isStale hstays
  obtain ⟨e, he, -⟩ := time?_eq_some.mp hm
  simp [(stat_eq_ok.mp he).2]

section

variable (hg : g.Coherent) (hproducts : g.products = .ok ps) (ht : g.Foreseeable t project ps)

include hg hproducts ht

/-- After work on outputs prerequisites can still be looked up. -/
theorem Advances.opens (h : g.Advances project rs t u) (hrs : rs ⊆ ps) (hq : q ∈ g.prerequisites) :
    u.Opens (project / q) := by
  refine (ht.prerequisites q hq).persists h fun l hl hmem ↦ ?_
  obtain ⟨r, hr, rfl⟩ : l ∈ places t project ps :=
    hmem.elim (fun ⟨r, hr, hl⟩ ↦ ⟨r, hrs hr, hl⟩) fun hl ↦ beside_subset hg hproducts t project hl
  exact ht.unbarred q hq r hr hl

/-- A prerequisite is missing once some outputs are there if it was, and none of them stands there or below. -/
theorem missing_iff (h : g.Advances project rs t u) (hrs : rs ⊆ ps)
    (hthere : ∀ r ∈ rs, u.entry? (t.place (project / r)) ≠ none) (hq : q ∈ g.prerequisites) :
    Missing u project q ↔ Unmet t project rs q := by
  have hopens := h.opens hg hproducts ht hrs hq
  have hu := h.wellFormed ht.wellFormed
  rw [Unmet, missing_iff_of_opens hu hopens, missing_iff_of_opens ht.wellFormed (ht.prerequisites q hq), h.place_eq]
  constructor
  · intro hnone
    refine ⟨?_, fun r hr ⟨ss, hss⟩ ↦ ?_⟩
    · by_contra hsome
      exact h.stays _ (ht.notBeside q hq) hsome hnone
    · obtain ⟨e, he⟩ := Option.ne_none_iff_exists'.mp (hthere r hr)
      rw [← hss] at he
      by_cases hnil : ss = []
      · rw [hnil, List.nil_append, hnone] at he
        cases he
      · obtain ⟨m, hm⟩ := hu.directory_of_append hnil he
        rw [hnone] at hm
        cases hm
  · rintro ⟨hnone, hoff⟩
    refine h.entry?_eq_none hnone ?_ ?_
    · rintro (⟨r, hr, heq⟩ | hbeside)
      · exact hoff r hr (heq ▸ List.suffix_refl _)
      · exact ht.notBeside q hq hbeside
    · rintro ⟨r, hr, habove⟩
      exact hoff r hr (habove.trans (List.tail_suffix _))

end

/-! ### Making targets -/

/-- Some targets are met: whatever they are made from beside objects is there when their turn comes, or is brought
about before by the outputs that are made. -/
def Met (g : Graph) (t : FileTree) (project : Path) (made todo : List Path) : Prop :=
  ∀ before p after x, todo = before ++ p :: after → g.targets.find? p = some x →
    ∀ q ∈ x.prereqs, ¬Unmet t project (made ++ before) q

theorem Met.cons {made todo : List Path} {x : Target} (hx : g.targets.find? p = some x)
    (hfirst : ∀ q ∈ x.prereqs, ¬Unmet t project made q) (hrest : g.Met t project (made ++ [p]) todo) :
    g.Met t project made (p :: todo) := by
  rintro (_ | ⟨p', before⟩) p'' after x' htodo hx' q hq
  · obtain ⟨rfl, rfl⟩ := List.cons.inj htodo
    obtain rfl := Option.some.inj (hx.symm.trans hx')
    rw [List.append_nil]
    exact hfirst q hq
  · obtain ⟨rfl, rfl⟩ := List.cons.inj htodo
    simpa using hrest before p'' after x' rfl hx' q hq

section

variable (hg : g.Coherent) (hproducts : g.products = .ok ps) (ht : g.Foreseeable t project ps)

include hg hproducts ht

/-- A target whose objects are there is judged, unless it has a prerequisite that is missing and that nothing has
brought about. -/
theorem targetIsStale_or_unmet (hadvances : g.Advances project rs t u) (hrs : rs ⊆ ps)
    (hthere : ∀ r ∈ rs, u.entry? (t.place (project / r)) ≠ none) {a : TargetAction} {x : Target}
    (ha : g.targetActions.find? a.target = some a) (hx : g.targets.find? a.target = some x)
    (hprereqs : a.prereqs = x.prereqs) (hobjects : a.objects ⊆ rs) (remade : List Path) :
    ((∀ q ∈ x.prereqs, ¬Unmet t project rs q) ∧ ∃ b, targetIsStale u project a remade = .ok b) ∨
      ∃ q ∈ x.prereqs, Unmet t project rs q ∧
        targetIsStale u project a remade = .error (.build (.noRule q a.target)) := by
  have hu := hadvances.creatable hrs (ht.aside hg hproducts) ht.toCreatable
  have hmem : a.target ∈ ps := (hg.mem_products hproducts).mpr (.inl (hg.mem_keys_of_targetAction ha))
  have hmissing : ∀ q ∈ x.prereqs, (Missing u project q ↔ Unmet t project rs q) := fun q hq ↦
    missing_iff hg hproducts ht hadvances hrs hthere (mem_prerequisites hx hq)
  have hinputs : ∀ q ∈ a.inputs, ∃ m?, modified? u project q = .ok m? := by
    intro q hq
    refine exists_modified?_of_opens hu.wellFormed ?_
    rcases List.mem_append.mp hq with hq | hq
    · exact hu.opens q (hrs (hobjects hq))
    · exact hadvances.opens hg hproducts ht hrs (mem_prerequisites hx (hprereqs ▸ hq))
  rcases targetIsStale_of_modified? (exists_modified?_of_opens hu.wellFormed (hu.opens _ hmem)) hinputs remade with
    ⟨hfound, hjudged⟩ | ⟨q, hq, hgone, herror⟩
  · refine .inl ⟨fun q hq ↦ (hmissing q hq).not.mp (hfound q ?_), hjudged⟩
    exact List.mem_append_right _ (hprereqs ▸ hq)
  · rcases List.mem_append.mp hq with hq | hq
    · rw [missing_iff_of_opens hu.wellFormed (hu.opens q (hrs (hobjects hq))), hadvances.place_eq] at hgone
      exact absurd hgone (hthere q (hobjects hq))
    · rw [hprereqs] at hq
      exact .inr ⟨q, hq, (hmissing q hq).mp hgone, herror⟩

end

/-- A target that is fresh is there. -/
theorem Creatable.entry?_ne_none_of_fresh (h : Creatable t project ps) {a : TargetAction} {remade : List Path}
    (ha : a.target ∈ ps) (hfresh : targetIsStale t project a remade = .ok false) :
    t.entry? (t.place (project / a.target)) ≠ none := by
  rw [Ne, ← missing_iff_of_opens h.wellFormed (h.opens _ ha)]
  intro hgone
  simpa using (targetIsStale_eq_ok hfresh).2.mpr (.inl hgone)

section

variable (hg : g.Coherent) (hproducts : g.products = .ok ps) (hdelivers : o.tools.Delivers g o.project)
  (ht : g.Foreseeable t o.project ps)

include hg hproducts hdelivers ht

/-- A target whose objects are there is made or kept, unless it has a prerequisite that is missing and that nothing has
brought about. -/
theorem target_of_advances (hadvances : g.Advances o.project rs t u) (hrs : rs ⊆ ps)
    (hthere : ∀ r ∈ rs, u.entry? (t.place (o.project / r)) ≠ none) (hp : g.targets.contains p)
    (hobjects : g.objectsAt p ⊆ rs) (remade : List Path) :
    ∃ a x, g.targetActions.find? p = some a ∧ g.targets.find? p = some x ∧
      ((∃ u₁, g.Advances o.project (rs ++ [p]) t u₁ ∧
          (∀ r ∈ rs ++ [p], u₁.entry? (t.place (o.project / r)) ≠ none) ∧
          (∀ q ∈ x.prereqs, ¬Unmet t o.project rs q) ∧
          (targetIsStale u o.project a remade = .ok true ∧ (∃ command, Realizes o a u u₁ command) ∨
            targetIsStale u o.project a remade = .ok false ∧ u₁ = u)) ∨
        ∃ q ∈ x.prereqs, Unmet t o.project rs q ∧
          targetIsStale u o.project a remade = .error (.build (.noRule q p))) := by
  obtain ⟨a, ha⟩ := hg.exists_targetAction hp
  obtain ⟨rfl, x, hx, haobjects, haprereqs⟩ := hg.targetAction p a ha
  have hmem : a.target ∈ ps := (hg.mem_products hproducts).mpr (.inl (hg.mem_keys_of_targetAction ha))
  rw [objectsAt, hx, Option.elim_some, ← haobjects] at hobjects
  refine ⟨a, x, ha, hx, ?_⟩
  rcases targetIsStale_or_unmet hg hproducts ht hadvances hrs hthere ha hx haprereqs hobjects remade with
    ⟨hmet, b, hb⟩ | hunmet
  · left
    have hu := hadvances.creatable hrs (ht.aside hg hproducts) ht.toCreatable
    have hgrown : g.Advances o.project (rs ++ [a.target]) t u := hadvances.mono (List.subset_append_left _ _)
    simp only [List.forall_mem_append, List.forall_mem_singleton]
    cases b with
    | true =>
      obtain ⟨u₁, command, hrealizes, hadvances₁, hmade, hstays⟩ :=
        exists_realizes hg hdelivers hu (hadvances.aside (ht.aside hg hproducts)) ha hmem
      rw [hadvances.place_eq] at hmade
      exact ⟨u₁, hgrown.trans (hadvances₁.mono (List.subset_append_right _ _)),
        ⟨fun r hr ↦ hstays _ (hthere r hr), hmade⟩, hmet, .inl ⟨hb, command, hrealizes⟩⟩
    | false =>
      have hkept := hu.entry?_ne_none_of_fresh hmem hb
      rw [hadvances.place_eq] at hkept
      exact ⟨u, hgrown, ⟨hthere, hkept⟩, hmet, .inr ⟨hb, rfl⟩⟩
  · exact .inr hunmet

/-- Targets whose objects are there are made or kept, up to the first that has a prerequisite which is missing and
which nothing has brought about. -/
theorem realizeAll_of_advances {todo : List Path} (result : BuildResult)
    (hadvances : g.Advances o.project rs t u) (hrs : rs ⊆ ps)
    (hthere : ∀ r ∈ rs, u.entry? (t.place (o.project / r)) ≠ none) (htodo : ∀ p ∈ todo, g.targets.contains p)
    (hobjects : ∀ p ∈ todo, g.objectsAt p ⊆ rs) :
    (∃ result' commands u', Runs (g.realizeAll o result todo) u commands (.ok result') u' ∧
        g.Met t o.project rs todo) ∨
      ∃ before p after x q commands u', todo = before ++ p :: after ∧ g.targets.find? p = some x ∧ q ∈ x.prereqs ∧
        Unmet t o.project (rs ++ before) q ∧
        Runs (g.realizeAll o result todo) u commands (.error (.build (.noRule q p))) u' := by
  induction todo generalizing u rs result with
  | nil => exact .inl ⟨result, [], u, runs_pure .., by simp [Met]⟩
  | cons p todo ih =>
    obtain ⟨a, x, ha, hx, ⟨u₁, hadvances₁, hthere₁, hmet, hturn⟩ | ⟨q, hq, hunmet, herror⟩⟩ :=
      target_of_advances hg hproducts hdelivers ht hadvances hrs hthere (htodo p List.mem_cons_self)
        (hobjects p List.mem_cons_self) (result.compiled ++ result.realized)
    · have hmem : p ∈ ps := (hg.mem_products hproducts).mpr (.inl (hg.mem_keys_of_targetAction ha))
      have hask := runs_ask (fun t ↦ targetIsStale t o.project a (result.compiled ++ result.realized)) u
      -- whatever the other targets come to, all come to once this one is there
      obtain ⟨result₁, hnext⟩ : ∃ result₁, ∀ {commands answer u'},
          Runs (g.realizeAll o result₁ todo) u₁ commands answer u' →
            ∃ commands', Runs (g.realizeAll o result (p :: todo)) u commands' answer u' := by
        rcases hturn with ⟨hstale, command, hrealizes⟩ | ⟨hfresh, rfl⟩
        · refine ⟨{ result with realized := result.realized ++ [p] }, fun {rest _ _} hruns ↦ ⟨[command] ++ rest, ?_⟩⟩
          rw [hstale] at hask
          rw [realizeAll, ha]
          exact hask.silent_bind ((runs_realize_ok.mpr ⟨_, hrealizes, rfl⟩).bind hruns)
        · refine ⟨{ result with upToDate := result.upToDate ++ [p] }, fun {rest _ _} hruns ↦ ⟨rest, ?_⟩⟩
          rw [hfresh] at hask
          rw [realizeAll, ha]
          exact hask.silent_bind hruns
      have hrest := ih result₁ hadvances₁ (List.append_subset.mpr ⟨hrs, by simpa using hmem⟩) hthere₁
        (fun p' hp' ↦ htodo p' (List.mem_cons_of_mem _ hp'))
        fun p' hp' ↦ List.Subset.trans (hobjects p' (List.mem_cons_of_mem _ hp')) (List.subset_append_left _ _)
      rcases hrest with ⟨result', commands, u', hruns, hmet'⟩ |
        ⟨before, p', after, x', q, commands, u', rfl, hx', hq, hunmet, hruns⟩
      · obtain ⟨commands', hruns⟩ := hnext hruns
        exact .inl ⟨result', commands', u', hruns, .cons hx hmet hmet'⟩
      · obtain ⟨commands', hruns⟩ := hnext hruns
        exact .inr ⟨p :: before, p', after, x', q, commands', u', rfl, hx', hq, by simpa using hunmet, hruns⟩
    · right
      have hask := runs_ask (fun t ↦ targetIsStale t o.project a (result.compiled ++ result.realized)) u
      rw [herror] at hask
      refine ⟨[], p, todo, x, q, [], u, rfl, hx, hq, by rwa [List.append_nil], ?_⟩
      rw [realizeAll, ha]
      exact hask.bind_error

/-- Objects that have been judged are there once the stale ones have been compiled. -/
theorem compileStale_of_judges {qs : List Path} {as : List CompileAction} (hjobs : 0 < o.jobs)
    (hjudges : Judges g t o.project qs as) :
    ∃ u commands, Runs (compileStale o as) t commands (.ok ()) u ∧ g.Advances o.project qs t u ∧
      ∀ q ∈ qs, u.entry? (t.place (o.project / q)) ≠ none := by
  obtain ⟨hstale, haction, hjudged⟩ := hjudges.eq_filter hg
  have hx (a : CompileAction) (ha : a ∈ as) := mem_values_of_object (hg.compileAction _ a (haction a ha)).2
  obtain ⟨u, commands, hcompiles, hadvances, hthere⟩ :=
    exists_compilesAll hg hdelivers ht.toCreatable (ht.aside hg hproducts) haction
      (fun a ha ↦ filesIn_products hg hproducts (hx a ha)) (fun a ha ↦ ht.texts _ (hx a ha))
      fun a ha ↦ ht.object_notMem_beside hg hproducts (hx a ha)
  refine ⟨u, commands, runs_compileStale_ok.mpr ⟨.inr hjobs, hcompiles⟩, hadvances.mono ?_, fun q hq ↦ ?_⟩
  · exact hstale ▸ List.filter_subset_self _
  · by_cases hmem : q ∈ as.map (·.object.path)
    · obtain ⟨a, ha, rfl⟩ := List.mem_map.mp hmem
      exact hthere a ha
    · obtain ⟨a, ha, -⟩ := hjudged q hq
      obtain ⟨rfl, hobject⟩ := hg.compileAction q a ha
      refine hadvances.stays _ (ht.object_notMem_beside hg hproducts (mem_values_of_object hobject)) ?_
      exact hjudges.entry?_ne_none_of_fresh hg hobject hq hmem

end

/-- There is no fault where goals have an order, objects have been judged, and targets are met. -/
theorem not_planningFault (hg : g.Coherent) {goals : List Path} {as : List CompileAction} {e : BuildError}
    (horder : g.targetOrder goals = .ok order) (hjudges : Judges g t project (g.objectsOf order) as)
    (hmet : g.Met t project (g.objectsOf order) order) : ¬g.PlanningFault t project goals e := by
  intro hfault
  cases hfault with
  | goal isGoal undeclared => exact undeclared ((places_placeGoals horder).2 _ isGoal)
  | cycle leads needsItself => exact not_hasCycle_of_targetOrder horder ⟨_, leads, needsItself⟩
  | @source p x leads needed object missing =>
    have hneeded : x.path ∈ g.objectsOf order := mem_objectsOf_iff.mpr ⟨p, (mem_targetOrder horder).mpr leads, needed⟩
    exact hjudges.not_missing hg object hneeded missing
  | @prerequisite before after p q x order' target needed _ _ unmet =>
    obtain rfl := Except.ok.inj (horder.symm.trans order')
    exact hmet before p after x rfl target q needed unmet

section

variable {goals : List Path} (hg : g.Coherent) (hclosed : g.Closed) (horder : g.targetOrder goals = .ok order)

include hg hclosed horder

/-- Every object of an order has a compile action. -/
theorem exists_action_of_targetOrder (hq : q ∈ g.objectsOf order) :
    ∃ a, g.compileActions.find? q = some a ∧ a.object.path = q ∧ a.object ∈ g.objects.values := by
  have hkey := ((hclosed.findsKeys.order goals order horder).2 q hq).2
  obtain ⟨a, ha⟩ := Option.isSome_iff_exists.mp ((Table.contains_iff_mem_keys ..).mpr hkey)
  obtain ⟨hpath, hobject⟩ := hg.compileAction q a ha
  exact ⟨a, ha, hpath, mem_values_of_object hobject⟩

/-- Once the objects of an order are there, its targets are made or kept, or one of them has a prerequisite that is at
fault. -/
theorem realizeAll_or_fault (hproducts : g.products = .ok ps) (hdelivers : o.tools.Delivers g o.project)
    (ht : g.Foreseeable t o.project ps) (result : BuildResult)
    (hadvances : g.Advances o.project (g.objectsOf order) t u)
    (hthere : ∀ q ∈ g.objectsOf order, u.entry? (t.place (o.project / q)) ≠ none) :
    (∃ result' commands u', Runs (g.realizeAll o result order) u commands (.ok result') u' ∧
        g.Met t o.project (g.objectsOf order) order) ∨
      ∃ e commands u', Runs (g.realizeAll o result order) u commands (.error (.build e)) u' ∧
        g.PlanningFault t o.project goals e := by
  have hready := readyOrder_of_targetOrder horder
  have hrs : g.objectsOf order ⊆ ps := by
    intro q hq
    obtain ⟨a, -, rfl, hx⟩ := exists_action_of_targetOrder hg hclosed horder hq
    exact object_mem_products hg hproducts hx
  rcases realizeAll_of_advances hg hproducts hdelivers ht result hadvances hrs hthere hready.isTarget
      fun p hp _ hq ↦ mem_objectsOf_iff.mpr ⟨p, hp, hq⟩ with
    hmet | ⟨before, p, after, x, q, commands, u', rfl, hx, hq, hunmet, hrealize⟩
  · exact .inl hmet
  · -- what is made before would have brought it about
    have hnew : q ∉ g.objectsOf (before ++ p :: after) ++ before := fun hmem ↦
      hunmet.2 q hmem (List.suffix_refl _)
    rw [List.mem_append, not_or] at hnew
    refine .inr ⟨_, commands, u', hrealize, .prerequisite horder hx hq (fun htarget ↦ ?_) hnew.1 hunmet⟩
    exact hnew.2 (hready.mem_before ⟨x, hx, hq, htarget⟩)

end

/-- Where tools make all that they are asked for, a build succeeds if there is no fault of planning, and else it fails
with one. -/
theorem build_or_fault (hg : g.Coherent) (hclosed : g.Closed) (hproducts : g.products = .ok ps)
    (hdelivers : o.tools.Delivers g o.project) (hjobs : 0 < o.jobs) (ht : g.Foreseeable t o.project ps)
    (goals? : Option (List Path)) :
    (∃ result commands u, Runs (g.build o goals?) t commands (.ok result) u ∧
        ∀ e, ¬g.PlanningFault t o.project (goals?.getD g.defaultGoals) e) ∨
      ∃ e commands u, Runs (g.build o goals?) t commands (.error (.build e)) u ∧
        g.PlanningFault t o.project (goals?.getD g.defaultGoals) e := by
  have hordered := runs_ofExcept ((g.targetOrder (goals?.getD g.defaultGoals)).mapError .build) t
  unfold build
  cases horder : g.targetOrder (goals?.getD g.defaultGoals) with
  | error e =>
    rw [horder] at hordered
    refine .inr ⟨e, [], t, hordered.bind_error, ?_⟩
    rcases fault_of_targetOrder horder with ⟨p, rfl, hleads, hcycle⟩ | ⟨p, hp, hundeclared, rfl⟩
    · exact .cycle hleads hcycle
    · exact .goal hp hundeclared
  | ok order =>
    rw [horder] at hordered
    have hactions : ∀ q ∈ g.objectsOf order, ∃ a, g.compileActions.find? q = some a ∧
        ∀ p ∈ a.object.path :: g.inputsOf a.object, ∃ m?, modified? t o.project p = .ok m? := by
      intro q hq
      obtain ⟨a, ha, -, hx⟩ := exists_action_of_targetOrder hg hclosed horder hq
      exact ⟨a, ha, ht.exists_modified? hg hproducts hx⟩
    rcases staleActions_of_modified? hactions with ⟨as, hjudges⟩ | ⟨q, hq, a, ha, hmissing, hruns⟩
    · have hstale := runs_staleActions_ok.mpr ⟨hjudges, rfl, rfl⟩
      obtain ⟨u, commands, hcompile, hadvances, hthere⟩ :=
        compileStale_of_judges hg hproducts hdelivers ht hjobs hjudges
      rcases realizeAll_or_fault hg hclosed horder hproducts hdelivers ht { compiled := as.map (·.object.path) }
          hadvances hthere with ⟨result, commands', u', hrealize, hmet⟩ | ⟨e, commands', u', hrealize, hfault⟩
      · have hlast : Runs (do say (buildRecord result); return result) u' [] (.ok result) u' :=
          (runs_say ..).silent_bind (runs_pure ..)
        exact .inl ⟨result, _, u',
          hordered.silent_bind (hstale.silent_bind (hcompile.bind (hrealize.bind_silent hlast))),
          fun e ↦ not_planningFault hg horder hjudges hmet⟩
      · exact .inr ⟨e, _, u', hordered.silent_bind (hstale.silent_bind (hcompile.bind hrealize.bind_error)), hfault⟩
    · obtain ⟨rfl, hobject⟩ := hg.compileAction q a ha
      obtain ⟨p, hp, hneeded⟩ := mem_objectsOf_iff.mp hq
      exact .inr ⟨_, _, _, hordered.silent_bind hruns.bind_error,
        .source ((mem_targetOrder horder).mp hp) hneeded (mem_values_of_object hobject) hmissing⟩

end Graph

/-! ### Projects to rehearse on -/

namespace Rehearsal

/-- A project that resolves to a graph whose products are known, with tools that make all that they are asked for. What
a build meets can be foreseen, and outputs are different files. -/
structure Foreseen (t : FileTree) (g : Graph) (ps : List Path) : Prop where
  resolve : (({} : Project).resolve t).2 = .ok ⟨g, {}⟩
  products : g.products = .ok ps
  delivers : options.tools.Delivers g .here
  foreseeable : g.Foreseeable t .here ps
  outputs : g.OutputsApart t .here

/-- One program, of one source, with one prerequisite. -/
def prereqTree (prereq : String) : FileTree := .ofFiles (.ofSeconds 100) [
  ("main.ini", "[module]\ntarget=app\nsources=a.c\nprereqs=" ++ prereq, .ofSeconds 50),
  ("a.c", "", .ofSeconds 50),
  ("a.h", "", .ofSeconds 50)]

/-- The graph of the project. -/
def prereqGraph (prereq : String) : Graph :=
  (⟨{}, [⟨{ path := .ofString "main.ini", directory := .here, target := "app", sources := ["a.c"],
            prereqs := [prereq] }, []⟩]⟩ : Blueprint).graph

/-- The products of the project. -/
def prereqProducts : List Path :=
  [.ofString "app", .ofString "build/a.o", .ofString "build/a.P", .ofString "build/a.d"]

/-- A program whose source is a target, which it needs. -/
def generatedTree : FileTree := .ofFiles (.ofSeconds 100) [
  ("main.ini", "[module]\ntarget=app\nsources=gen.c\nprereqs=gen.c\nsubmodules=sub", .ofSeconds 50),
  ("sub/module.ini", "[module]\ntarget=gen.c", .ofSeconds 50)]

/-- The graph of the project. -/
def generatedGraph : Graph :=
  (⟨{}, [
    ⟨{ path := .ofString "main.ini", directory := .here, target := "app", sources := ["gen.c"], prereqs := ["gen.c"],
       submodules := ["sub"] }, []⟩,
    ⟨{ path := .ofString "sub/module.ini", directory := .ofString "sub", target := "gen.c" }, []⟩]⟩
    : Blueprint).graph

/-- The products of the project. -/
def generatedProducts : List Path :=
  [.ofString "app", .ofString "gen.c", .ofString "build/gen.o", .ofString "build/gen.P", .ofString "build/gen.d"]

/-- Whether a project can be foreseen can be computed. -/
theorem Foreseen.of_computed {t : FileTree} {g : Graph} {ps : List Path}
    (hresolve : (({} : Project).resolve t).2.toOption = some ⟨g, {}⟩) (hproducts : g.products.toOption = some ps)
    (hserves : script.Serves g)
    (hcommands : (∀ a ∈ g.compileActions.values, a.command.words?.isSome) ∧
      ∀ a ∈ g.targetActions.values, a.command.words?.isSome)
    (hforeseeable : g.Foreseeable t .here ps) (houtputs : g.OutputsApart t .here) : Foreseen t g ps where
  resolve := toOption_eq_some.mp hresolve
  products := toOption_eq_some.mp hproducts
  delivers := ToolScript.Serves.delivers_toolchain hserves ⟨rfl, rfl, rfl⟩ hcommands.1 hcommands.2
  foreseeable := hforeseeable
  outputs := houtputs

set_option maxRecDepth 10000 in
theorem foreseen_unmet : Foreseen (prereqTree "app.ld") (prereqGraph "app.ld") prereqProducts :=
  .of_computed (by decide +kernel) (by decide +kernel) (by decide +kernel) (by decide +kernel) (by decide +kernel)
    (by decide +kernel)

set_option maxRecDepth 10000 in
theorem foreseen_met : Foreseen (prereqTree "build") (prereqGraph "build") prereqProducts :=
  .of_computed (by decide +kernel) (by decide +kernel) (by decide +kernel) (by decide +kernel) (by decide +kernel)
    (by decide +kernel)

set_option maxRecDepth 10000 in
theorem foreseen_generated : Foreseen generatedTree generatedGraph generatedProducts :=
  .of_computed (by decide +kernel) (by decide +kernel) (by decide +kernel) (by decide +kernel) (by decide +kernel)
    (by decide +kernel)

end Rehearsal

/-! ### Resolved projects -/

namespace Graph

open FileTree

variable {o : BuildOptions} {ps : List Path}

/-- Where tools make all that they are asked for, a build of a resolved project fails exactly if there is a fault of
planning, and it fails with one. Only of sources it may say that there is no rule for them although they are targets. -/
theorem build_fails_iff {p : Project} {t₀ : FileTree} {r : Resolved} (hresolve : (p.resolve t₀).2 = .ok r)
    (hproducts : r.graph.products = .ok ps) (hdelivers : o.tools.Delivers r.graph o.project) (hjobs : 0 < o.jobs)
    {goals? : Option (List Path)} {run run' : Run} {answer : Except Failure BuildResult}
    (ht : r.graph.Foreseeable run.tree o.project ps)
    (hrun : (r.graph.build o goals?).run.run run = (answer, run')) :
    ((∃ e, answer = .error (.build e)) ↔
      ∃ e, r.graph.PlanningFault run.tree o.project (goals?.getD r.graph.defaultGoals) e) ∧
    (∀ f, answer = .error f →
      ∃ e, f = .build e ∧ r.graph.PlanningFault run.tree o.project (goals?.getD r.graph.defaultGoals) e) ∧
    ∀ q q', answer = .error (.build (.noRule q q')) →
      (∃ x ∈ r.graph.objects.values, q = x.source ∧ q' = x.path ∧ Missing run.tree o.project q) ∨
        ¬r.graph.targets.contains q ∧ ∀ order,
          r.graph.targetOrder (goals?.getD r.graph.defaultGoals) = .ok order → q ∉ r.graph.objectsOf order := by
  obtain ⟨root, os, hresolves⟩ := Project.resolve_eq_ok.mp hresolve
  have hclosed : r.graph.Closed := by
    rw [hresolves.graph_eq]
    exact Blueprint.closed_graph _ _
  rcases build_or_fault hresolves.coherent hclosed hproducts hdelivers hjobs ht goals? with
    ⟨result, commands, u, hruns, hnone⟩ | ⟨e, commands, u, hruns, hfault⟩
  · obtain ⟨rfl, -, -⟩ := hruns.of_run hrun
    exact ⟨⟨by simp, fun ⟨e, he⟩ ↦ absurd he (hnone e)⟩, by simp, by simp⟩
  · obtain ⟨rfl, -, -⟩ := hruns.of_run hrun
    refine ⟨iff_of_true ⟨e, rfl⟩ ⟨e, hfault⟩, ?_, ?_⟩
    · rintro f ⟨⟩
      exact ⟨e, rfl, hfault⟩
    · rintro q q' ⟨⟩
      cases hfault with
      | source _ _ object missing => exact .inl ⟨_, object, rfl, rfl, missing⟩
      | prerequisite order _ _ undeclared noObject _ =>
        refine .inr ⟨undeclared, fun order' horder' ↦ ?_⟩
        obtain rfl := Except.ok.inj (order.symm.trans horder')
        exact noObject

open Rehearsal in
set_option maxRecDepth 10000 in
/-- A build fails for a prerequisite that is missing and that nothing brings about. -/
theorem build_fails_of_unmet : ∃ run',
    ((prereqGraph "app.ld").build options none).run.run (start (prereqTree "app.ld")) =
      (.error (.build (.noRule (.ofString "app.ld") (.ofString "app"))), run') ∧
    (prereqGraph "app.ld").PlanningFault (prereqTree "app.ld") .here [.ofString "app"]
      (.noRule (.ofString "app.ld") (.ofString "app")) := by
  have hrun : ((prereqGraph "app.ld").build options none).run.run (start (prereqTree "app.ld")) =
      (.error (.build (.noRule (.ofString "app.ld") (.ofString "app"))), _) := Prod.ext (by decide +kernel) rfl
  have h := foreseen_unmet
  obtain ⟨-, hfails, -⟩ := build_fails_iff h.resolve h.products h.delivers (by decide) h.foreseeable hrun
  obtain ⟨e, he, hfault⟩ := hfails _ rfl
  obtain rfl := Failure.build.inj he
  exact ⟨_, hrun, hfault⟩

open Rehearsal in
set_option maxRecDepth 10000 in
/-- A prerequisite may be missing that is neither a target nor an object, and yet the build succeeds: the directory that
was made for an object stands in for it. And a missing source may be a target that comes before what is made of it. -/
theorem build_succeeds_of_met :
    (Foreseen (prereqTree "build") (prereqGraph "build") prereqProducts ∧
      (∃ x, (prereqGraph "build").targets.find? (.ofString "app") = some x ∧ .ofString "build" ∈ x.prereqs) ∧
      ¬(prereqGraph "build").targets.contains (.ofString "build") ∧
      .ofString "build" ∉ (prereqGraph "build").objects.keys ∧
      Missing (prereqTree "build") .here (.ofString "build") ∧
      ∃ run', ((prereqGraph "build").build options (some [.ofString "app"])).run.run (start (prereqTree "build")) =
        (.ok ⟨[.ofString "build/a.o"], [.ofString "app"], []⟩, run')) ∧
    Foreseen generatedTree generatedGraph generatedProducts ∧
      generatedGraph.targets.contains (.ofString "gen.c") ∧
      generatedGraph.targetOrder [.ofString "app"] = .ok [.ofString "gen.c", .ofString "app"] ∧
      ∃ run', (generatedGraph.build options (some [.ofString "app"])).run.run (start generatedTree) =
        (.error (.build (.noRule (.ofString "gen.c") (.ofString "build/gen.o"))), run') := by
  have hmissing : (prereqTree "build").time? (.here / .ofString "build") = none := by decide +kernel
  refine ⟨⟨foreseen_met, ?_, by decide +kernel, by decide +kernel, hmissing, _, Prod.ext (by decide +kernel) rfl⟩,
    foreseen_generated, by decide +kernel, by decide +kernel, _, Prod.ext (by decide +kernel) rfl⟩
  obtain ⟨x, hx⟩ := Option.isSome_iff_exists.mp
    (by decide +kernel : ((prereqGraph "build").targets.find? (.ofString "app")).isSome)
  have hneeded : ∀ x ∈ (prereqGraph "build").targets.find? (.ofString "app"), .ofString "build" ∈ x.prereqs := by
    decide +kernel
  exact ⟨x, hx, hneeded x hx⟩

end Graph

end ModuleBuild
