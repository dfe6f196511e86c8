import ModuleBuild.Proofs.Graph.Assembling

/-!
# Resolution yields the blueprint's graph

Every object has a compile rule, since its source is in a known language; so commands can be synthesized
for whatever has been assembled. With that, resolution without headers is told in full by the unfolding
of the module tree (`resolve_eq_blueprint`).
-/

namespace ModuleBuild

/-- The compile rule for the suffix of a source in a known language. -/
theorem Settings.find?_compileRules (s : Settings) {source : Path} {l : Language}
    (h : Language.ofSource? source = some l) :
    (s.compileRules.find? fun r ↦ r.suffix = source.suffix) =
      some ⟨source.suffix, l, s.compiler l⟩ := by
  have hlookup : ∀ entries : List (String × Language), entries.lookup source.suffix = some l →
      ((entries.map fun e ↦ (⟨e.1, e.2, s.compiler e.2⟩ : CompileRule)).find?
          fun r ↦ r.suffix = source.suffix) = some ⟨source.suffix, l, s.compiler l⟩ := by
    intro entries hentries
    induction entries with
    | nil => simp at hentries
    | cons entry entries ih =>
      obtain ⟨suffix, language⟩ := entry
      rw [List.lookup_cons] at hentries
      by_cases hs : suffix = source.suffix
      · simp_all
      · have hne : (source.suffix == suffix) = false := by simpa using Ne.symm hs
        rw [hne] at hentries
        simpa [hs] using ih hentries
  exact hlookup Language.suffixes h

namespace Blueprint

/-- Every object of a blueprint is one of its records. -/
theorem mem_records {b : Blueprint} {e : Path × ObjectRecord} (h : e ∈ b.objects.entries) :
    e.2 ∈ b.records ∧ e.1 = e.2.path := by
  obtain ⟨r, hr, rfl⟩ := List.mem_map.mp (Table.mem_of_mem_ofList h)
  exact ⟨hr, rfl⟩

theorem compileAction_eq {b : Blueprint} {r : ObjectRecord} (h : r ∈ b.records) :
    b.settings.compileAction r = .ok (b.compileAction r) := by
  obtain ⟨o, -, hr⟩ := List.mem_flatMap.mp h
  have hlanguage := Module.language_of_mem_records hr
  simp only [Settings.compileAction, b.settings.find?_compileRules hlanguage, compileAction]

/-- There is no graph if there is a fault, or if the unfolding ends early. -/
theorem graph?_eq_error {b : Blueprint} {ending : Option Failure} {f : Failure} :
    b.graph? ending = .error f ↔ b.fault? = some f ∨ b.fault? = none ∧ ending = some f := by
  unfold graph?
  cases b.fault? with
  | some f' => simp
  | none => cases ending <;> simp

theorem graph?_eq_ok {b : Blueprint} {ending : Option Failure} {g : Graph} :
    b.graph? ending = .ok g ↔ b.fault? = none ∧ ending = none ∧ b.graph = g := by
  unfold graph?
  cases b.fault? with
  | some f => simp
  | none => cases ending <;> simp

end Blueprint

/-- Steps that all succeed give all answers. -/
theorem mapM_eq_ok_map {ε α β : Type} {f : α → Except ε β} {g : α → β} {xs : List α}
    (h : ∀ x ∈ xs, f x = .ok (g x)) : xs.mapM f = .ok (xs.map g) := by
  induction xs with
  | nil => rfl
  | cons x xs ih =>
    have htail := ih fun y hy ↦ h y (List.mem_cons_of_mem _ hy)
    simp [h x List.mem_cons_self, htail]

/-- The graph of what has been assembled is that of the blueprint. -/
theorem Assembly.Follows.graphOf_eq {a : Assembly} {b : Blueprint} (h : a.Follows b) :
    Project.graphOf b.settings a = .ok b.graph := by
  have hactions : b.objects.entries.mapM
      (fun e ↦ b.settings.compileAction e.2 >>= fun action ↦ .ok (e.1, action)) =
        .ok (b.objects.entries.map fun e ↦ (e.1, b.compileAction e.2)) :=
    mapM_eq_ok_map fun e he ↦ by
      rw [Blueprint.compileAction_eq (Blueprint.mem_records he).1]
      rfl
  have hcxx : a.ownership.hasCxx = b.records.any (·.language = .cxx) := by
    rw [Bool.eq_iff_iff, Ownership.hasCxx, List.contains_iff_mem, h.languages]
    simp
  have htable {α : Type} (f : Target → α) :
      Table.ofList (a.registry.targets.values.map fun t ↦ (t.path, f t)) =
        Table.tabulate b.declared fun p ↦ f (b.targetAt p) := by
    rw [h.registry, Table.values_tabulate, List.map_map]
    exact Table.ofList_map h.nodup _
  unfold Project.graphOf Graph.synthesize
  rw [h.objects, hcxx]
  simp only [hactions, ok_bind, pure_eq_ok, htable]
  rfl

namespace Project

/-- Assembling a walk fails with the first fault of the root and what its references unfold to, or else with what ends the
unfolding; if there is neither, the assembly is in step with their blueprint. -/
theorem follow_walkFrom (t : FileTree) (project : Path) (root : Module) (s : Settings) :
    ∃ os ending, Module.Unfolds t project root [] root.submodules os ending ∧
      Module.Visited s.targetDir (root.walkFrom t project s.targetDir).visits (⟨root, []⟩ :: os) ∧
      match (⟨s, ⟨root, []⟩ :: os⟩ : Blueprint).fault? <|> ending with
      | some f => ((Assembly.start s).follow (root.walkFrom t project s.targetDir)).2 = .error f
      | none => ∃ a, ((Assembly.start s).follow (root.walkFrom t project s.targetDir)).2 = .ok a ∧
          a.Follows ⟨s, ⟨root, []⟩ :: os⟩ := by
  obtain ⟨os, ending, hunfolds, hvisited, hending⟩ :=
    Module.walkFrom_unfolds t project s.targetDir root
  refine ⟨os, ending, hunfolds, hvisited, ?_⟩
  have hordered : Assembly.Ordered [] (⟨root, []⟩ :: os) :=
    ⟨by simp, Assembly.ordered_of_unfolds hunfolds⟩
  have hadd := (Assembly.follows_start s).addAll_eq hvisited hordered
  have hfollow := Assembly.snd_follow (Assembly.start s) (root.walkFrom t project s.targetDir)
  simp only [hending] at hfollow
  simp only [hfollow, Blueprint.fault?]
  cases hfault : ({ settings := s } : Blueprint).firstFault? (⟨root, []⟩ :: os) with
  | some f =>
    simp only [hfault] at hadd
    simp [hadd]
  | none =>
    simp only [hfault, List.nil_append] at hadd
    obtain ⟨a, hadd, hfollows⟩ := hadd
    cases ending with
    | some f => simp [hadd]
    | none => simpa [hadd] using hfollows

/-- Assembling a walk yields the graph of the blueprint of the root and what its references unfold to. -/
theorem follow_walkFrom_eq (t : FileTree) (project : Path) (root : Module) (s : Settings) :
    ∃ os ending, Module.Unfolds t project root [] root.submodules os ending ∧
      ((Assembly.start s).follow (root.walkFrom t project s.targetDir)).2 >>= graphOf s =
        Blueprint.graph? ⟨s, ⟨root, []⟩ :: os⟩ ending := by
  obtain ⟨os, ending, hunfolds, -, hfollow⟩ := follow_walkFrom t project root s
  refine ⟨os, ending, hunfolds, ?_⟩
  rw [Blueprint.graph?]
  cases h : (⟨s, ⟨root, []⟩ :: os⟩ : Blueprint).fault? <|> ending with
  | some f =>
    rw [h] at hfollow
    rw [hfollow, error_bind]
  | none =>
    rw [h] at hfollow
    obtain ⟨a, hassembled, hfollows⟩ := hfollow
    rw [hassembled, ok_bind, hfollows.graphOf_eq]

theorem resolve_of_load {p : Project} {t : FileTree} {f : Failure} (h : p.load t = .error f) :
    (p.resolve t).2 = .error f := by
  unfold resolve
  rw [h]

/-- What a project resolves to hangs on what the references of its modules unfold to. -/
theorem resolve_of_unfolds {p : Project} {t : FileTree} {root : Module} {s : Settings} {os : List Occurrence}
    {ending : Option Failure} (hload : p.load t = .ok (root, s))
    (hunfolds : Module.Unfolds t p.directory root [] root.submodules os ending) :
    (p.resolve t).2 =
      Blueprint.graph? ⟨s, ⟨root, []⟩ :: os⟩ ending >>= fun g ↦ (p.withHeaders t g).map fun taken ↦ ⟨taken.1, s⟩ := by
  obtain ⟨os', ending', hunfolds', hgraph⟩ := follow_walkFrom_eq t p.directory root s
  obtain ⟨rfl, rfl⟩ := hunfolds'.unique hunfolds
  unfold resolve
  simp only [hload, hgraph]
  cases Blueprint.graph? ⟨s, ⟨root, []⟩ :: os⟩ ending with
  | error f => rfl
  | ok g =>
    rw [ok_bind]
    dsimp only
    cases p.withHeaders t g <;> rfl

/-- Resolution without headers: if the root module can be loaded, the references of the modules unfold in
exactly one way, and the answer is that of the blueprint of the root and what its references unfold to.
It is the blueprint's graph if the unfolding comes to its end and no occurrence is at fault, else the
first fault, else what ends the unfolding. -/
theorem resolve_eq_blueprint (p : Project) (t : FileTree) :
    match p.load t with
    | .error f => (({ p with includeHeaders := false } : Project).resolve t).2 = .error f
    | .ok (root, s) => ∃ os ending,
        (∀ os' ending', Module.Unfolds t p.directory root [] root.submodules os' ending' ↔
          os' = os ∧ ending' = ending) ∧
        (({ p with includeHeaders := false } : Project).resolve t).2 =
          (Blueprint.graph? ⟨s, ⟨root, []⟩ :: os⟩ ending).map fun g ↦ ⟨g, s⟩ := by
  have hload : ({ p with includeHeaders := false } : Project).load t = p.load t := rfl
  unfold resolve
  rw [hload]
  cases p.load t with
  | error f => rfl
  | ok loaded =>
    obtain ⟨root, s⟩ := loaded
    obtain ⟨os, ending, hunfolds, hgraph⟩ := follow_walkFrom_eq t p.directory root s
    refine ⟨os, ending, fun os' ending' ↦ ⟨hunfolds.unique, ?_⟩, ?_⟩
    · rintro ⟨rfl, rfl⟩
      exact hunfolds
    · simp only [hgraph]
      cases Blueprint.graph? ⟨s, ⟨root, []⟩ :: os⟩ ending with
      | error f => rfl
      | ok g => simp [withHeaders, Except.map]

end Project

end ModuleBuild
