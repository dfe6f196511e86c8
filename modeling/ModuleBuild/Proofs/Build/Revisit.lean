import ModuleBuild.Proofs.Build.Territory

/-!
# Projects resolved again

What is found when a project is resolved again in the midst of a build or after one (`Revisited`): the same
graph, apart from the headers of objects that have been compiled. These objects are fresh now, those that
were fresh are so still, and targets that are settled are kept (`Judges.again`, `realizesAll_of_settled`).
-/

namespace ModuleBuild

open FileTree

namespace Graph

variable {g g' : Graph} {o : BuildOptions} {project : Path} {t t' : FileTree} {q : Path} {r : ObjectRecord}

/-- The objects that are picked out are stale. -/
theorem Judges.exists_verdict {ps : List Path} {as : List CompileAction}
    (h : Judges g t project ps as) :
    ∀ a ∈ as, ∃ v, g.judge t project a.object = .ok v ∧ v.isStale := by
  induction h with
  | nil => simp
  | stale _ verdict isStale _ ih =>
    intro a' ha'
    rcases List.mem_cons.mp ha' with rfl | ha'
    · exact ⟨_, verdict, isStale⟩
    · exact ih a' ha'
  | fresh _ _ _ _ ih => exact ih

/-- Judging again picks out the stale objects that have not been compiled, if those that have been are
fresh, as are those that were. -/
theorem Judges.again {ps : List Path} {as as₁ as₂ : List CompileAction} (h : Judges g t project ps as)
    (has : as = as₁ ++ as₂) (hactions : g'.compileActions = g.compileActions)
    (hdone : ∀ a ∈ as₁, g'.judge t' project a.object = .ok .fresh)
    (hpending : ∀ a ∈ as₂, ∃ v, g'.judge t' project a.object = .ok v ∧ v.isStale)
    (hkept : ∀ p ∈ ps, ∀ a v, g.compileActions.find? p = some a →
      g.judge t project a.object = .ok v → v.isStale = false →
        g'.judge t' project a.object = .ok .fresh) : Judges g' t' project ps as₂ := by
  induction h generalizing as₁ as₂ with
  | nil =>
    obtain ⟨rfl, rfl⟩ := List.append_eq_nil_iff.mp has.symm
    exact .nil
  | stale action verdict isStale rest ih =>
    have hkept := fun q hq ↦ hkept q (List.mem_cons_of_mem _ hq)
    cases as₁ with
    | nil =>
      obtain rfl := has.symm
      obtain ⟨v, hv, hstale⟩ := hpending _ List.mem_cons_self
      exact .stale (hactions ▸ action) hv hstale (ih (List.nil_append _).symm (by simp)
        (fun a ha ↦ hpending a (List.mem_cons_of_mem _ ha)) hkept)
    | cons a as₁ =>
      obtain ⟨rfl, has'⟩ := List.cons.inj has
      exact .fresh (hactions ▸ action) (hdone _ List.mem_cons_self) rfl
        (ih has' (fun a ha ↦ hdone a (List.mem_cons_of_mem _ ha)) hpending hkept)
  | fresh action verdict isFresh rest ih =>
    exact .fresh (hactions ▸ action) (hkept _ List.mem_cons_self _ _ action verdict isFresh) rfl
      (ih has hdone hpending fun q hq ↦ hkept q (List.mem_cons_of_mem _ hq))

/-- Settled targets are kept if none of their inputs is made again. -/
theorem realizesAll_of_settled (result : BuildResult) {ps : List Path}
    (h : ∀ p ∈ ps, ∃ a, g.targetActions.find? p = some a ∧ Settled t o.project a ∧
      ∀ q ∈ a.inputs, q ∉ result.compiled ++ result.realized) :
    RealizesAll g o result ps t { result with upToDate := result.upToDate ++ ps } t [] := by
  induction ps generalizing result with
  | nil => simpa using .done
  | cons p ps ih =>
    obtain ⟨a, ha, hsettled, hremade⟩ := h p List.mem_cons_self
    have hrest := ih { result with upToDate := result.upToDate ++ [p] } fun q hq ↦
      h q (List.mem_cons_of_mem _ hq)
    simp only [List.append_assoc, List.singleton_append] at hrest
    exact .kept ha (hsettled.targetIsStale_eq_false hremade) hrest

end Graph

/-- A project can be resolved again when its module descriptors are not touched, and dependency descriptors
are still texts and have no names that are too long. -/
theorem Project.Resolves.exists_again_of_readable {p : Project} {r : Resolved} {root : Module}
    {os : List Occurrence} {t t' : FileTree} {now : Timestamp} {written made : Set Location}
    (h : p.Resolves t r root os) (hev : t.Evolves t' now written made)
    (hdescriptors : ∀ d ∈ p.descriptors t, t.place (p.directory / d) ∉ written)
    (hreadable : r.graph.Readable t p.directory → r.graph.Readable t' p.directory)
    (hnameable : ∀ x ∈ r.graph.objects.values, ∀ d, x.dependencies = .ok d →
      (p.directory / d).IsNameable) : ∃ r', (p.resolve t').2 = .ok r' := by
  have hg := h.coherent
  refine h.exists_again hev.toTouches hdescriptors fun hinclude x hx ↦ ?_
  refine (hreadable fun x hx ↦ ?_) x hx |>.headersOf_isOk (hg.object _ _ (hg.find?_of_mem hx)).2.1
    (hnameable x hx)
  have hheaders := h.find?_headers hx
  rw [if_pos hinclude] at hheaders
  obtain ⟨hs?, hhs, -⟩ := hheaders
  exact Listing.isReadable_of_headersOf hhs

/-- In the midst of a build the project can be resolved again, if descriptors are still texts and have no
names that are too long. -/
theorem Graph.Halfway.exists_resolved {p : Project} {r : Resolved} {t t' : FileTree} {now : Timestamp}
    {as : List CompileAction} {realized : List Path} (hresolve : (p.resolve t).2 = .ok r)
    (h : r.graph.Halfway t t' p.directory now as realized)
    (hdescriptors : ∀ d ∈ p.descriptors t, t.place (p.directory / d) ∉ r.graph.territory t p.directory)
    (hreadable : r.graph.Readable t p.directory → r.graph.Readable t' p.directory)
    (hnameable : ∀ x ∈ r.graph.objects.values, ∀ d, x.dependencies = .ok d →
      (p.directory / d).IsNameable) : ∃ r', (p.resolve t').2 = .ok r' := by
  obtain ⟨root, os, hresolves⟩ := Project.resolve_eq_ok.mp hresolve
  exact hresolves.exists_again_of_readable h.evolves
    (fun d hd hmem ↦ hdescriptors d hd (h.written_subset hresolves.coherent hmem)) hreadable hnameable

/-- A project is resolved, objects are compiled and targets made, and the project is resolved again. -/
structure Revisited (p : Project) (r r' : Resolved) (t t' : FileTree) (now : Timestamp)
    (as : List CompileAction) (realized : List Path) : Prop where
  resolves : ∃ root os, p.Resolves t r root os ∧ p.Resolves t' r' root os
  graph_eq : r'.graph = { r.graph with headers := r'.graph.headers }
  halfway : r.graph.Halfway t t' p.directory now as realized
  apart : r.graph.KeptApart t p.directory
  inputs : r.graph.InputsApart t p.directory

namespace Revisited

variable {p : Project} {r r' : Resolved} {t t' : FileTree} {now : Timestamp}
  {as : List CompileAction} {realized : List Path} {x : ObjectRecord}

theorem coherent (h : Revisited p r r' t t' now as realized) : r.graph.Coherent := by
  obtain ⟨root, os, hresolves, -⟩ := h.resolves
  exact hresolves.coherent

/-- A project is revisited if its descriptors, sources and headers are not written. -/
theorem of_resolves (hresolve : (p.resolve t).2 = .ok r) (hresolve' : (p.resolve t').2 = .ok r')
    (h : r.graph.Halfway t t' p.directory now as realized) (hapart : r.graph.KeptApart t p.directory)
    (hinputs : r.graph.InputsApart t p.directory)
    (hdescriptors : ∀ d ∈ p.descriptors t,
      t.place (p.directory / d) ∉ r.graph.territory t p.directory) :
    Revisited p r r' t t' now as realized := by
  obtain ⟨root, os, hresolves⟩ := Project.resolve_eq_ok.mp hresolve
  have hoff := fun d hd hmem ↦ hdescriptors d hd (h.written_subset hresolves.coherent hmem)
  exact ⟨⟨root, os, hresolves, (hresolves.persists h.evolves.toTouches hoff hresolve').1⟩,
    hresolves.graph_eq_again h.evolves.toTouches hoff hresolve', h, hapart, hinputs⟩

section

variable (h : Revisited p r r' t t' now as realized)

include h

theorem objects_eq : r'.graph.objects = r.graph.objects := by rw [h.graph_eq]

theorem compileActions_eq : r'.graph.compileActions = r.graph.compileActions := by rw [h.graph_eq]

theorem targetActions_eq : r'.graph.targetActions = r.graph.targetActions := by rw [h.graph_eq]

theorem objectsOf_eq (order : List Path) : r'.graph.objectsOf order = r.graph.objectsOf order := by
  rw [h.graph_eq]
  rfl

theorem targetOrder_eq (goals? : Option (List Path)) :
    r'.graph.targetOrder (goals?.getD r'.graph.defaultGoals) =
      r.graph.targetOrder (goals?.getD r.graph.defaultGoals) := by
  rw [h.graph_eq, Graph.targetOrder_headers]
  rfl

end

/-- An object that has not been compiled has the headers that it had. -/
theorem find?_headers (h : Revisited p r r' t t' now as realized) (hx : x ∈ r.graph.objects.values)
    (hnot : x.path ∉ as.map (·.object.path)) :
    r'.graph.headers.find? x.path = r.graph.headers.find? x.path := by
  obtain ⟨root, os, hresolves, hresolves'⟩ := h.resolves
  have hfind := h.coherent.find?_of_mem hx
  have hx' : x ∈ r'.graph.objects.values := by
    rw [h.graph_eq]
    exact hx
  have hs := h.apart.outputs.isStraight _ (Graph.mem_outputs_of_object hfind)
  refine hresolves.find?_headers_persists hresolves' h.halfway.evolves.toTouches h.apart.wellFormed hs hx hx'
    fun d hd ↦ ?_
  exact h.halfway.byproducts_notMem h.coherent h.apart hfind hnot _
    (ObjectRecord.mem_byproducts.mpr ⟨d, .inl hd, rfl⟩)

theorem inputsOf_eq (h : Revisited p r r' t t' now as realized) (hx : x ∈ r.graph.objects.values)
    (hnot : x.path ∉ as.map (·.object.path)) : r'.graph.inputsOf x = r.graph.inputsOf x := by
  rw [Graph.inputsOf, Graph.inputsOf, h.find?_headers hx hnot]

/-- Sources and headers keep their times. -/
theorem time?_input (h : Revisited p r r' t t' now as realized) (hx : x ∈ r.graph.objects.values)
    {q : Path} (hq : q ∈ r.graph.inputsOf x) {m : Timestamp}
    (hm : t.time? (p.directory / q) = some m) : t'.time? (p.directory / q) = some m :=
  h.halfway.evolves.time?_eq_some
    (fun hmem ↦ h.inputs x hx q hq (h.halfway.written_subset h.coherent hmem)) hm

/-- An object that was fresh is fresh still. -/
theorem judge_of_fresh (h : Revisited p r r' t t' now as realized) (hx : x ∈ r.graph.objects.values)
    (hnot : x.path ∉ as.map (·.object.path)) (hfresh : ¬r.graph.IsStale t p.directory x) :
    r'.graph.judge t' p.directory x = .ok .fresh := by
  obtain ⟨m, hm, hinputs⟩ := Graph.exists_of_not_isStale hfresh
  have hfind := h.coherent.find?_of_mem hx
  obtain ⟨e, he, rfl⟩ := FileTree.time?_eq_some.mp hm
  have he' := h.halfway.stat_object h.coherent h.apart hfind hnot he
  refine Graph.judge_eq_fresh (FileTree.time?_eq_some.mpr ⟨e, he', rfl⟩) fun q hq ↦ ?_
  rw [h.inputsOf_eq hx hnot] at hq
  obtain ⟨m', hm', hnewer⟩ := hinputs q hq
  exact ⟨m', h.time?_input hx hq hm', hnewer⟩

/-- An object that has been compiled is fresh if its headers are there and not later. -/
theorem judge_of_compiled (h : Revisited p r r' t t' now as realized) (hlater : t.NoLater now)
    (hx : x ∈ r.graph.objects.values) (hmade : t'.time? (p.directory / x.path) = some now)
    (hsource : ∃ m, t.time? (p.directory / x.source) = some m)
    (hheaders : ∀ q ∈ (r'.graph.headers.find? x.path).getD [],
      ∃ m, t'.time? (p.directory / q) = some m ∧ m ≤ now) :
    r'.graph.judge t' p.directory x = .ok .fresh := by
  have hnot {m : Timestamp} (hle : m ≤ now) : ¬now < m := by
    rw [Timestamp.lt_iff]
    rw [Timestamp.le_iff] at hle
    omega
  refine Graph.judge_eq_fresh hmade fun q hq ↦ ?_
  rcases Graph.mem_inputsOf.mp hq with rfl | hq
  · obtain ⟨m, hm⟩ := hsource
    exact ⟨m, h.time?_input hx (Graph.mem_inputsOf.mpr (.inl rfl)) hm, hnot (hlater.le_of_time? hm)⟩
  · obtain ⟨m, hm, hle⟩ := hheaders q hq
    exact ⟨m, hm, hnot hle⟩

/-- An object that has not been compiled is judged as it was, if its headers are there and it is looked up
as it was. -/
theorem judge_of_pending (h : Revisited p r r' t t' now as realized) (hx : x ∈ r.graph.objects.values)
    (hnot : x.path ∉ as.map (·.object.path)) {v : Verdict}
    (hv : r.graph.judge t p.directory x = .ok v)
    (hheaders : ∀ q ∈ (r.graph.headers.find? x.path).getD [],
      ∃ m, t.time? (p.directory / q) = some m)
    (hself : ∀ m?, t.modified? (p.directory / x.path) = .ok m? →
      t'.modified? (p.directory / x.path) = .ok m?) : r'.graph.judge t' p.directory x = .ok v := by
  rw [← hv]
  refine Graph.judge_congr (h.inputsOf_eq hx hnot) ?_ fun q hq ↦ ?_
  · obtain ⟨made?, hmade, -⟩ := bind_eq_ok.mp hv
    rw [hmade]
    exact mapError_eq_ok.mpr (hself made? (mapError_eq_ok.mp hmade))
  · have hthere : ∃ m, t.time? (p.directory / q) = some m := by
      rcases Graph.mem_inputsOf.mp hq with rfl | hq
      · exact Graph.exists_source_of_judge hv
      · exact hheaders q hq
    obtain ⟨m, hm⟩ := hthere
    rw [Graph.modified?_of_time? hm, Graph.modified?_of_time? (h.time?_input hx hq hm)]

/-- Objects that are compiled in part, and those that were fresh, are fresh now; those that are still to be
compiled are picked out again if they are stale. -/
theorem judges {order : List Path} {as₂ : List CompileAction}
    (h : Revisited p r r' t t' now as realized)
    (hjudges : Graph.Judges r.graph t p.directory (r.graph.objectsOf order) (as ++ as₂))
    (hlater : t.NoLater now) (htime : ∀ a ∈ as, t'.time? (p.directory / a.object.path) = some now)
    (hheaders : ∀ x ∈ r'.graph.objects.values, ∀ q ∈ (r'.graph.headers.find? x.path).getD [],
      ∃ m, t'.time? (p.directory / q) = some m ∧ m ≤ now)
    (hpending : ∀ a ∈ as₂, ∃ v, r'.graph.judge t' p.directory a.object = .ok v ∧ v.isStale) :
    Graph.Judges r'.graph t' p.directory (r'.graph.objectsOf order) as₂ := by
  have hg := h.coherent
  have haction := (hjudges.eq_filter hg).2.1
  have hverdict := hjudges.exists_verdict
  rw [h.objectsOf_eq]
  refine hjudges.again rfl h.compileActions_eq (fun a ha ↦ ?_) hpending fun q _ a v ha hv hfresh ↦ ?_
  · have hmem := List.mem_append_left as₂ ha
    have hx := Graph.mem_values_of_object (hg.compileAction _ a (haction a hmem)).2
    obtain ⟨v, hv, -⟩ := hverdict a hmem
    exact h.judge_of_compiled hlater hx (htime a ha) (Graph.exists_source_of_judge hv)
      (hheaders _ (h.objects_eq ▸ hx))
  · obtain ⟨hpath, hobject⟩ := hg.compileAction q a ha
    refine h.judge_of_fresh (Graph.mem_values_of_object hobject) (fun hmem ↦ ?_)
      ((Graph.judge_isStale hv).not.mp (by simp [hfresh]))
    obtain ⟨a', ha', heq⟩ := List.mem_map.mp hmem
    have hmem' := List.mem_append_left as₂ ha'
    obtain rfl := Option.some.inj
      ((haction a' hmem').symm.trans (by rw [heq, hpath]; exact ha))
    obtain ⟨v', hv', hstale'⟩ := hverdict a' hmem'
    obtain rfl := Except.ok.inj (hv.symm.trans hv')
    simp [hfresh] at hstale'

/-- Targets that are settled are kept when nothing has been made again. -/
theorem realizesAll_of_settled {o : BuildOptions} {ps : List Path}
    (h : Revisited p r r' t t' now as realized) (hproject : o.project = p.directory)
    (hps : ∀ q ∈ ps, q ∈ r.graph.targets.keys)
    (hsettled : ∀ q ∈ ps, ∀ a, r.graph.targetActions.find? q = some a →
      Graph.Settled t' p.directory a) :
    Graph.RealizesAll r'.graph o {} ps t' { upToDate := ps } t' [] := by
  refine Graph.realizesAll_of_settled {} fun q hq ↦ ?_
  obtain ⟨a, ha⟩ := h.coherent.exists_targetAction ((Table.contains_iff_mem_keys ..).mpr (hps q hq))
  exact ⟨a, h.targetActions_eq ▸ ha, hproject ▸ hsettled q hq a ha, by simp⟩

end Revisited

end ModuleBuild
