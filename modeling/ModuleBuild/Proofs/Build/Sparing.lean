import ModuleBuild.Proofs.Build.Course
import ModuleBuild.Proofs.Build.Territory

/-!
# What builds do to objects that they do not compile

A build leaves alone the objects whose compilers do not succeed, and their descriptors: whatever else its steps
write, also where they fail, stands elsewhere (`Spares`). Each step spares these objects (`spares_compiles`,
`strands_or_spares`, `spares_realizes`, `spares_realizeFails`), and so does a whole run (`spares_build`).
-/

namespace ModuleBuild.Graph

open FileTree RunM

variable {g : Graph} {o : BuildOptions} {project : Path} {now : Timestamp} {t t₁ t' : FileTree}
  {xs : List ObjectRecord} {p : Path} {commands : List (List String)} {command : List String} {e : Failure}

/-- The locations in the territory of a graph at which none of some objects stands, and none of their
descriptors. -/
def others (g : Graph) (t : FileTree) (project : Path) (xs : List ObjectRecord) : Set Location :=
  { l | l ∈ g.territory t project ∧ ∀ x ∈ xs, l ≠ t.place (project / x.path) ∧
    ∀ d, x.dependencies = .ok d → l ≠ t.place (project / d) }

/-- What is done to the tree leaves some objects and their descriptors alone. -/
def Spares (g : Graph) (project : Path) (now : Timestamp) (xs : List ObjectRecord) (t t' : FileTree) :
    Prop :=
  t.Evolves t' now (g.others t project xs) (g.aboveOutputs t project)

theorem others_eq (h : t'.current = t.current) (project : Path) (xs : List ObjectRecord) :
    g.others t' project xs = g.others t project xs := by
  unfold others territory FileTree.place
  simp only [h, byproducts_eq h]

theorem aboveOutputs_eq (h : t'.current = t.current) (project : Path) :
    g.aboveOutputs t' project = g.aboveOutputs t project := by
  unfold aboveOutputs FileTree.place
  rw [h]

theorem Spares.trans (h : g.Spares project now xs t t₁) (h' : g.Spares project now xs t₁ t') :
    g.Spares project now xs t t' := by
  unfold Spares at h' ⊢
  rw [others_eq h.current, aboveOutputs_eq h.current] at h'
  exact Evolves.trans h h'

/-- The files of a graph stay different files. -/
theorem KeptApart.of_evolves {written made : Set Location} (ht : g.KeptApart t project)
    (h : t.Evolves t' now written made) : g.KeptApart t' project := ht.of_touches h.toTouches

/-! ### Where steps write -/

section Places

variable (hg : g.Coherent) (ht : g.KeptApart t project) (hxs : ∀ x ∈ xs, x ∈ g.objects.values)

include hg ht hxs

/-- A compile of another object writes elsewhere. -/
theorem footprint_subset_others {r : ObjectRecord} (hr : r ∈ g.objects.values)
    (hne : ∀ x ∈ xs, r.path ≠ x.path) : footprint t project r ⊆ g.others t project xs := by
  have hfind := hg.find?_of_mem hr
  rintro l (rfl | hl)
  · refine ⟨List.mem_append_left _ (List.mem_map_of_mem (mem_outputs_of_object hfind)), fun x hx ↦ ?_⟩
    have hfind' := hg.find?_of_mem (hxs x hx)
    refine ⟨fun heq ↦ hne x hx ?_, fun d hd heq ↦ ?_⟩
    · exact ht.outputs.eq_of_place_eq (mem_outputs_of_object hfind) (mem_outputs_of_object hfind') heq
    · exact ht.outputs.object_notBeside hg hfind hfind'
        (ObjectRecord.mem_byproducts.mpr ⟨d, .inl hd, heq⟩)
  · refine ⟨List.mem_append_right _ (List.mem_flatMap.mpr ⟨r, hr, hl⟩), fun x hx ↦ ⟨?_, fun d hd heq ↦ ?_⟩⟩
    · rintro rfl
      exact ht.outputs.object_notBeside hg (hg.find?_of_mem (hxs x hx)) hfind hl
    · exact ht.byproducts_disjoint hg hr (hxs x hx) (hne x hx) hl
        (ObjectRecord.mem_byproducts.mpr ⟨d, .inl hd, heq⟩)

/-- A listing is neither an object nor a descriptor. -/
theorem listing_mem_others {r : ObjectRecord} (hr : r ∈ g.objects.values) {listing : Path}
    (hl : r.listing = .ok listing) : t.place (project / listing) ∈ g.others t project xs := by
  have hbeside : t.place (project / listing) ∈ r.byproducts t project :=
    ObjectRecord.mem_byproducts.mpr ⟨listing, .inr hl, rfl⟩
  refine ⟨List.mem_append_right _ (List.mem_flatMap.mpr ⟨r, hr, hbeside⟩), fun x hx ↦ ⟨?_, ?_⟩⟩
  · exact fun heq ↦ ht.outputs.object_notBeside hg (hg.find?_of_mem (hxs x hx)) (hg.find?_of_mem hr)
      (heq ▸ hbeside)
  · exact fun d hd heq ↦
      ht.dependencies_notMem_writings hg (hxs x hx) hr hd (.inr ⟨listing, hl, heq.symm⟩)

/-- A target is neither an object nor a descriptor. -/
theorem target_mem_others (hp : p ∈ g.targets.keys) :
    t.place (project / p) ∈ g.others t project xs := by
  have hout := mem_outputs_of_target hp
  refine ⟨List.mem_append_left _ (List.mem_map_of_mem hout), fun x hx ↦ ?_⟩
  have hfind := hg.find?_of_mem (hxs x hx)
  refine ⟨fun heq ↦ ht.outputs.ne hfind hp ?_, fun d hd heq ↦ ?_⟩
  · exact ht.outputs.eq_of_place_eq (mem_outputs_of_object hfind) hout heq.symm
  · exact ht.outputs.notBeside p hp x (hxs x hx) (ObjectRecord.mem_byproducts.mpr ⟨d, .inl hd, heq⟩)

end Places

/-! ### Single steps -/

/-- A compile fails although its compiler has succeeded: what that has left cannot be made into a
descriptor. -/
def Strands (o : BuildOptions) (a : CompileAction) (t t' : FileTree) (e : Failure) : Prop :=
  ∃ t₁ t₂ command r, t.ensureDirectory (o.project / a.object.path).parent = (t₁, .ok ()) ∧
    a.command.words? = some command ∧ o.tools t₁ o.project command = (t₂, r) ∧ r.IsSuccess ∧
    Listing.finalize t₂ o.project a.object = (t', .error e)

/-- Seeing to the directory of an output spares all objects. -/
theorem spares_ensureParent (now : Timestamp) (xs : List ObjectRecord) (ht : g.KeptApart t project)
    (hp : p ∈ g.outputs) :
    g.Spares project now xs t (t.ensureDirectory (project / p).parent).1 :=
  (evolves_ensureParent_fst ht.wellFormed now (ht.outputs.isStraight p hp)).mono
    (Set.empty_subset _) fun _ hl ↦ ⟨p, hp, hl⟩

section Steps

variable (hg : g.Coherent) (ht : g.KeptApart t o.project) (hxs : ∀ x ∈ xs, x ∈ g.objects.values)

include hg ht hxs

section Compiles

variable (htools : o.tools.Obeys g o.project now) {a : CompileAction}
  (ha : g.compileActions.find? a.object.path = some a)

include htools ha

/-- A compile spares all objects but its own. -/
theorem spares_compiles (hne : ∀ x ∈ xs, a.object.path ≠ x.path) (h : Compiles o a t t' command) :
    g.Spares o.project now xs t t' := by
  have hobject := (hg.compileAction _ a ha).2
  have hout := mem_outputs_of_object hobject
  refine (evolves_compiles hg htools ht.wellFormed ha (ht.outputs.isStraight _ hout) h).1.mono ?_ ?_
  · exact footprint_subset_others hg ht hxs (mem_values_of_object hobject) hne
  · exact fun l hl ↦ ⟨_, hout, hl⟩

/-- A compile that fails although its compiler has succeeded spares all objects but its own. -/
theorem spares_strands (hne : ∀ x ∈ xs, a.object.path ≠ x.path) (h : Strands o a t t' e) :
    g.Spares o.project now xs t t' := by
  obtain ⟨t₁, t₂, command, r, hdirectory, hwords, htool, hr, hfinalize⟩ := h
  have hobject := (hg.compileAction _ a ha).2
  have hout := mem_outputs_of_object hobject
  have hs := ht.outputs.isStraight _ hout
  have hsubset {t₂ : FileTree} (ht₂ : g.KeptApart t₂ o.project) :
      footprint t₂ o.project a.object ⊆ g.others t₂ o.project xs :=
    footprint_subset_others hg ht₂ hxs (mem_values_of_object hobject) hne
  have hparent := spares_ensureParent now xs ht hout
  rw [hdirectory] at hparent
  have ht₁ := ht.of_evolves hparent
  have hcompiler : g.Spares o.project now xs t₁ t₂ :=
    (evolves_compiler hg htools ha hwords htool hr).1.mono
      ((writings_subset ..).trans (hsubset ht₁)) (Set.empty_subset _)
  have ht₂ := ht₁.of_evolves hcompiler
  have hfinalize : g.Spares o.project now xs t₂ t' :=
    (Listing.evolves_beside ht₂.wellFormed hfinalize).mono
      (fun l hl ↦ hsubset ht₂ (.inr hl)) (Set.empty_subset _)
  exact hparent.trans (hcompiler.trans hfinalize)

end Compiles

/-- A compile that fails for another reason spares all objects. -/
theorem strands_or_spares (hfailing : o.tools.Forgoes g o.project now) {a : CompileAction}
    (ha : g.compileActions.find? a.object.path = some a) (h : CompileFails o a t t' e commands) :
    Strands o a t t' e ∨ g.Spares o.project now xs t t' := by
  have hobject := (hg.compileAction _ a ha).2
  have hout := mem_outputs_of_object hobject
  have hs := ht.outputs.isStraight _ hout
  have hparent := spares_ensureParent now xs ht hout
  cases h with
  | directory directory =>
    rw [directory] at hparent
    exact .inr hparent
  | command directory performs =>
    rw [directory] at hparent
    refine .inr ?_
    cases performs with
    | program => exact hparent
    | command words tools fails =>
      have ht₁ := ht.of_evolves hparent
      rcases hfailing.compile _ a _ _ _ _ ha words tools (Response.not_isSuccess fails) with
        rfl | ⟨listing, hl, hwritten⟩
      · exact hparent
      refine hparent.trans (hwritten.evolves.mono ?_ (Set.empty_subset _))
      rintro l ⟨q, hq, rfl⟩
      rw [List.mem_singleton.mp hq]
      exact listing_mem_others hg ht₁ hxs (mem_values_of_object hobject) hl
  | listing directory words tools succeeds finalize =>
    exact .inl ⟨_, _, _, _, directory, words, tools, succeeds, finalize⟩

variable {a : TargetAction} (ha : g.targetActions.find? p = some a) (hp : p ∈ g.targets.keys)

include ha hp

/-- Making a target spares all objects. -/
theorem spares_realizes (htools : o.tools.Obeys g o.project now) (h : Realizes o a t t' command) :
    g.Spares o.project now xs t t' := by
  have hout := mem_outputs_of_target hp
  refine (evolves_realizes hg htools ht.wellFormed ha (ht.outputs.isStraight p hout) h).1.mono ?_ ?_
  · rintro l rfl
    exact target_mem_others hg ht hxs hp
  · exact fun l hl ↦ ⟨p, hout, hl⟩

/-- Making a target spares all objects also when it fails. -/
theorem spares_realizeFails (hfailing : o.tools.Forgoes g o.project now)
    (h : RealizeFails o a t t' e commands) : g.Spares o.project now xs t t' := by
  have hout := mem_outputs_of_target hp
  have hs := ht.outputs.isStraight p hout
  have hparent := spares_ensureParent now xs ht hout
  obtain ⟨htarget, -⟩ := hg.targetAction p a ha
  cases h with
  | directory directory =>
    rw [htarget] at directory
    rwa [directory] at hparent
  | command directory performs =>
    rw [htarget] at directory
    rw [directory] at hparent
    cases performs with
    | program => exact hparent
    | command words tools fails =>
      have ht₁ := ht.of_evolves hparent
      rcases hfailing.realize p a _ _ _ _ ha words tools (Response.not_isSuccess fails) with
        rfl | hwritten
      · exact hparent
      rw [htarget] at hwritten
      refine hparent.trans (hwritten.evolves.mono ?_ (Set.empty_subset _))
      rintro l ⟨q, hq, rfl⟩
      rw [List.mem_singleton.mp hq]
      exact target_mem_others hg ht₁ hxs hp

end Steps

/-! ### Runs -/

/-- The part of a compile that ends with its command. -/
def runCompiler (o : BuildOptions) (a : CompileAction) : RunM Unit := do
  ensureParent (o.project / a.object.path)
  perform o (.compile a.object.source) a.command

theorem Strands.treeAfter_ne_none {a : CompileAction} (h : Strands o a t t' e) :
    treeAfter (runCompiler o a) t ≠ none := by
  obtain ⟨t₁, t₂, command, r, hdirectory, hwords, htool, hr, -⟩ := h
  have hruns : Runs (runCompiler o a) t [command] (.ok ()) t₂ :=
    (runs_ensureParent_ok.mpr ⟨hdirectory, rfl⟩).silent_bind
      (runs_perform_ok.mpr ⟨command, r, hwords, htool, hr, rfl⟩)
  rw [treeAfter_eq hruns]
  simp [Except.toOption]

/-- Those of some objects whose compiles end as they should, one after another up to the first that
fails. -/
def finished (o : BuildOptions) : List CompileAction → FileTree → List CompileAction
  | [], _ => []
  | a :: as, t => (treeAfter (compile o a) t).elim [] fun t₁ ↦ a :: finished o as t₁

/-- The object whose compile fails, as the first, although its compiler has succeeded. -/
def stranded? (o : BuildOptions) : List CompileAction → FileTree → Option CompileAction
  | [], _ => none
  | a :: as, t =>
    match treeAfter (compile o a) t with
    | some t₁ => stranded? o as t₁
    | none => (treeAfter (runCompiler o a) t).map fun _ ↦ a

section Runs

variable (hg : g.Coherent) (ht : g.KeptApart t o.project) (hxs : ∀ x ∈ xs, x ∈ g.objects.values)
  (htools : o.tools.Obeys g o.project now) (hfailing : o.tools.Forgoes g o.project now)

include hg ht hxs htools hfailing

/-- Compiles spare what is neither finished nor stranded by them. -/
theorem spares_compileAll {as : List CompileAction} {answer : Except Failure Unit}
    (ha : ∀ a ∈ as, g.compileActions.find? a.object.path = some a)
    (h : Runs (compileAll o as) t commands answer t')
    (hfinished : ∀ a ∈ finished o as t, ∀ x ∈ xs, a.object.path ≠ x.path)
    (hstranded : ∀ a ∈ stranded? o as t, ∀ x ∈ xs, a.object.path ≠ x.path) :
    g.Spares o.project now xs t t' := by
  induction as generalizing t commands with
  | nil =>
    obtain ⟨-, -, rfl⟩ := (runs_pure () t).unique h
    exact .refl ..
  | cons a as ih =>
    rw [compileAll] at h
    rw [finished] at hfinished
    rw [stranded?] at hstranded
    have haction := ha a List.mem_cons_self
    rcases (runs_bind (total_compile o a) fun _ ↦ total_compileAll o as).mp h with
      ⟨e, rfl, hfirst⟩ | ⟨_, t₁, _, _, hfirst, hrest, rfl⟩
    · rcases strands_or_spares hg ht hxs hfailing haction (compileFails_of_runs hfirst) with
        hstrands | hspares
      · obtain ⟨t₁, hcompiler⟩ := Option.ne_none_iff_exists'.mp hstrands.treeAfter_ne_none
        rw [treeAfter_eq hfirst] at hstranded
        exact spares_strands hg ht hxs htools haction (hstranded a (by simp [hcompiler, Except.toOption]))
          hstrands
      · exact hspares
    · rw [treeAfter_eq hfirst] at hfinished hstranded
      obtain ⟨command, hcompiles, rfl⟩ := runs_compile_ok.mp hfirst
      have hspares := spares_compiles hg ht hxs htools haction
        (hfinished a List.mem_cons_self) hcompiles
      exact hspares.trans (ih (ht.of_evolves hspares) (fun a' ha' ↦ ha a' (List.mem_cons_of_mem _ ha'))
        hrest (fun a' ha' ↦ hfinished a' (List.mem_cons_of_mem _ ha')) hstranded)

/-- Targets that are made, up to the first that fails, spare all objects. -/
theorem spares_carries {tasks : List Task} (h : Carries o tasks t t' commands)
    (htasks : ∀ task ∈ tasks, ∃ a, task = .realize a ∧ g.targetActions.find? a.target = some a ∧
      a.target ∈ g.targets.keys) : g.Spares o.project now xs t t' := by
  induction h with
  | done => exact .refl ..
  | succeeds first _ ih =>
    obtain ⟨a, rfl, ha, hp⟩ := htasks _ List.mem_cons_self
    have hspares := spares_realizes hg ht hxs ha hp htools first
    exact hspares.trans
      (ih (ht.of_evolves hspares) fun task htask ↦ htasks task (List.mem_cons_of_mem _ htask))
  | fails last =>
    obtain ⟨a, rfl, ha, hp⟩ := htasks _ List.mem_cons_self
    exact spares_realizeFails hg ht hxs ha hp hfailing last

/-- Going through targets spares all objects. -/
theorem spares_realizeAll {order : List Path} (horder : ∀ p ∈ order, p ∈ g.targets.keys)
    {result : BuildResult} {answer : Except Failure BuildResult}
    (h : Runs (g.realizeAll o result order) t commands answer t') :
    g.Spares o.project now xs t t' := by
  refine spares_carries hg ht hxs htools hfailing (carries_realizeAll h) fun task htask ↦ ?_
  obtain ⟨a, ha, rfl⟩ := List.mem_map.mp htask
  obtain ⟨hsublist, hactions⟩ := foundStale_sublist hg result order t
  exact ⟨a, rfl, hactions a ha, horder _ (hsublist.subset (List.mem_map_of_mem ha))⟩

end Runs

/-- The compile of an object ends as it should in a build. -/
def IsFinished (g : Graph) (o : BuildOptions) (goals : List Path) (t : FileTree) (x : ObjectRecord) :
    Prop :=
  0 < o.jobs ∧ ∃ order stale, g.FindsStale o.project goals t order stale ∧
    ∃ a ∈ finished o stale t, a.object.path = x.path

/-- In a build the compiler of an object succeeds, but what it has left cannot be made into a descriptor. -/
def IsStranded (g : Graph) (o : BuildOptions) (goals : List Path) (t : FileTree) (x : ObjectRecord) :
    Prop :=
  0 < o.jobs ∧ ∃ order stale, g.FindsStale o.project goals t order stale ∧
    ∃ a ∈ stranded? o stale t, a.object.path = x.path

/-- Stale objects are compiled only if there is a job to do it. -/
theorem runs_compileAll_of_compileStale {stale : List CompileAction} {answer : Except Failure Unit}
    (h : Runs (compileStale o stale) t commands answer t') :
    t' = t ∨ 0 < o.jobs ∧ Runs (compileAll o stale) t commands answer t' := by
  unfold compileStale at h
  split at h
  · obtain ⟨-, -, rfl⟩ := (runs_throw _ t).unique h
    exact .inl rfl
  · next hjobs =>
    by_cases hpos : 0 < o.jobs
    · exact .inr ⟨hpos, h⟩
    · obtain rfl : stale = [] := by
        have hle : o.jobs ≤ 0 := by omega
        simpa [hle] using hjobs
      obtain ⟨-, -, rfl⟩ := (runs_pure () t).unique h
      exact .inl rfl

theorem FindsStale.mem_keys {goals order : List Path} {stale : List CompileAction}
    (h : g.FindsStale o.project goals t order stale) : ∀ p ∈ order, p ∈ g.targets.keys := fun p hp ↦
  (Table.contains_iff_mem_keys ..).mp ((readyOrder_of_targetOrder h.targetOrder).isTarget p hp)

/-- A build spares the objects that it neither finishes nor strands, however it ends. -/
theorem spares_build (hg : g.Coherent) (ht : g.KeptApart t o.project)
    (hxs : ∀ x ∈ xs, x ∈ g.objects.values) (htools : o.tools.Obeys g o.project now)
    (hfailing : o.tools.Forgoes g o.project now) {goals? : Option (List Path)}
    {answer : Except Failure BuildResult} (h : Runs (g.build o goals?) t commands answer t')
    (hfinished : ∀ x ∈ xs, ¬g.IsFinished o (goals?.getD g.defaultGoals) t x)
    (hstranded : ∀ x ∈ xs, ¬g.IsStranded o (goals?.getD g.defaultGoals) t x) :
    g.Spares o.project now xs t t' := by
  by_cases hnone : ∃ order stale, g.FindsStale o.project (goals?.getD g.defaultGoals) t order stale
  swap
  · obtain ⟨-, rfl⟩ := silent_of_not_findsStale hnone h
    exact .refl ..
  obtain ⟨order, stale, hfinds⟩ := hnone
  have hcompiles {compiles : List (List String)} {answer : Except Failure Unit} {compiled : FileTree}
      (hcompile : Runs (compileStale o stale) t compiles answer compiled) :
      g.Spares o.project now xs t compiled := by
    rcases runs_compileAll_of_compileStale hcompile with rfl | ⟨hpos, hcompile⟩
    · exact .refl ..
    refine spares_compileAll hg ht hxs htools hfailing (hfinds.judges.eq_filter hg).2.1 hcompile ?_ ?_
    · exact fun a ha x hx heq ↦ hfinished x hx ⟨hpos, order, stale, hfinds, a, ha, heq⟩
    · exact fun a ha x hx heq ↦ hstranded x hx ⟨hpos, order, stale, hfinds, a, ha, heq⟩
  rcases runs_afterJudging (hfinds.runs h) with
    ⟨e, hcompile⟩ | ⟨compiled, compiles, realizes, answer', hcompile, hrealize, rfl⟩
  · exact hcompiles hcompile
  · have hspares := hcompiles hcompile
    exact hspares.trans
      (spares_realizeAll hg (ht.of_evolves hspares) hxs htools hfailing hfinds.mem_keys hrealize)

end ModuleBuild.Graph
