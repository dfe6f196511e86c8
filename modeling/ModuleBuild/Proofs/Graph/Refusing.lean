import ModuleBuild.Proofs.Graph.Coherence

/-!
# Why a project does not resolve

There are four reasons: the root module cannot be loaded, an occurrence is at fault, a reference leads nowhere, or a
dependency descriptor cannot be read (`Project.resolve_eq_error`). Each has failures of its own: what keeps files from
being read (`Failure.isOfFiles`), what is wrong with a module (`Failure.isOfModules`), and a module that is among its own
submodules. The walk never runs into its bound (`Project.resolve_ne_endless`).
-/

namespace ModuleBuild

namespace Failure

/-- The failure comes from files, or from settings that nobody knows. -/
def isOfFiles : Failure → Bool
  | .load _ | .file _ | .override _ | .notUtf8 _ | .namelessObject _ => true
  | _ => false

/-- The failure comes from what modules declare and list. -/
def isOfModules : Failure → Bool
  | .registry _ | .source _ => true
  | _ => false

/-- The failure comes from a reference: files cannot be read, or a loop is closed. -/
def isOfReferences : Failure → Bool
  | .cycle .. => true
  | f => f.isOfFiles

theorem isOfFiles_ofLoad (e : LoadFailure) : (ofLoad e).isOfFiles := by
  cases e <;> rfl

theorem isOfReferences_of_isOfFiles {f : Failure} (h : f.isOfFiles) : f.isOfReferences := by
  cases f <;> first | rfl | exact h

end Failure

/-! ### What each step may fail with -/

namespace Listing

variable (t : FileTree) (project : Path)

theorem failsOnly_headersOf (x : ObjectRecord) : FailsOnly (·.isOfFiles) (headersOf t project x) := by
  refine .bind (.mapError _ fun _ ↦ rfl) fun d ↦ .bind (.mapError _ fun _ ↦ rfl) fun b ↦ ?_
  split
  · exact .bind (.bind (.mapError _ fun _ ↦ rfl) fun _ ↦ .mapError _ fun _ ↦ rfl) fun text ↦ .ok _
  · exact .ok _

theorem failsOnly_includeAll (headers : Table Path (List Path)) (xs : List ObjectRecord) :
    FailsOnly (·.isOfFiles) (includeAll t project headers xs).2 := by
  induction xs generalizing headers with
  | nil => exact .ok 0
  | cons x xs ih =>
    rw [includeAll]
    have hx := failsOnly_headersOf t project x
    split
    · next f hf =>
      rw [hf] at hx
      exact hx.error_of
    · exact ih headers
    · exact (ih _).map

end Listing

namespace Module

variable {t : FileTree} {project : Path} {m : Module} {above : List Module}

theorem failsOnly_refer (t : FileTree) (project : Path) (m : Module) (above : List Module) (reference : String) :
    FailsOnly (·.isOfReferences) (refer t project m above reference) := by
  refine .bind (.mapError _ fun _ ↦ rfl) fun path ↦ ?_
  dsimp only
  split
  · exact .error rfl
  · exact .mapError _ fun e ↦ Failure.isOfReferences_of_isOfFiles (Failure.isOfFiles_ofLoad e)

/-- An unfolding ends early at a reference. -/
theorem Unfolds.isOfReferences {rs : List String} {os : List Occurrence} {ending : Option Failure} {f : Failure}
    (h : Unfolds t project m above rs os ending) (hf : ending = some f) : f.isOfReferences := by
  induction h with
  | done => cases hf
  | broken h => exact (failsOnly_refer ..).of_error _ (Option.some.inj hf ▸ h)
  | cut _ _ ih => exact ih hf
  | next _ _ _ _ ih => exact ih hf

end Module

namespace Blueprint

theorem faultOf_isOfModules {b : Blueprint} {o : Occurrence} {f : Failure} (h : b.faultOf o = some f) :
    f.isOfModules := by
  unfold faultOf at h
  split at h
  · exact Option.some.inj h ▸ rfl
  · split at h
    · obtain ⟨e, -, rfl⟩ := Option.map_eq_some_iff.mp h
      rfl
    · exact Option.some.inj h ▸ rfl

theorem fault?_isOfModules {b : Blueprint} {f : Failure} (h : b.fault? = some f) : f.isOfModules := by
  have hfirst (os : List Occurrence) (b : Blueprint) (h : b.firstFault? os = some f) : f.isOfModules := by
    induction os generalizing b with
    | nil => cases h
    | cons o os ih =>
      rw [firstFault?] at h
      cases hfault : b.faultOf o with
      | some f' =>
        rw [hfault] at h
        exact faultOf_isOfModules (hfault.trans h)
      | none =>
        rw [hfault] at h
        exact ih _ h
  exact hfirst _ _ h

end Blueprint

namespace Project

variable {p : Project} {t : FileTree} {f : Failure}

/-- The root module of a project is the one that its root descriptor describes. -/
theorem module_load_of_load {root : Module} {s : Settings} (h : p.load t = .ok (root, s)) :
    Module.load t p.directory p.root = .ok root :=
  (load_eq_ok.mp h).1

theorem load_eq_error : p.load t = .error f ↔
    (∃ e, Module.load t p.directory p.root = .error e ∧ .ofLoad e = f) ∨
      ∃ root, Module.load t p.directory p.root = .ok root ∧ p.settingsOf root = .error f := by
  unfold load settingsOf
  cases Module.load t p.directory p.root with
  | error e => simp
  | ok root => simp [bind_eq_error]

theorem failsOnly_load (p : Project) (t : FileTree) : FailsOnly (·.isOfFiles) (p.load t) :=
  .bind (.mapError _ Failure.isOfFiles_ofLoad) fun _ ↦ .bind (.mapError _ fun _ ↦ rfl) fun _ ↦ .ok _

theorem failsOnly_withHeaders (p : Project) (t : FileTree) (g : Graph) :
    FailsOnly (·.isOfFiles) (p.withHeaders t g) := by
  unfold withHeaders
  split
  · exact (Listing.failsOnly_includeAll ..).map
  · exact .ok _

/-- A project does not resolve: its root module is not loaded, an occurrence is at fault, the unfolding of references
ends early, or dependency descriptors cannot be read. -/
inductive Refuses (p : Project) (t : FileTree) (f : Failure) : Prop where
  | load (load : p.load t = .error f)
  | fault {root : Module} {s : Settings} {os : List Occurrence} {ending : Option Failure}
      (load : p.load t = .ok (root, s)) (unfolds : Module.Unfolds t p.directory root [] root.submodules os ending)
      (fault : (⟨s, ⟨root, []⟩ :: os⟩ : Blueprint).fault? = some f)
  | ending {root : Module} {s : Settings} {os : List Occurrence}
      (load : p.load t = .ok (root, s)) (unfolds : Module.Unfolds t p.directory root [] root.submodules os (some f))
      (noFault : (⟨s, ⟨root, []⟩ :: os⟩ : Blueprint).fault? = none)
  | headers {root : Module} {s : Settings} {os : List Occurrence}
      (load : p.load t = .ok (root, s)) (unfolds : Module.Unfolds t p.directory root [] root.submodules os none)
      (noFault : (⟨s, ⟨root, []⟩ :: os⟩ : Blueprint).fault? = none)
      (headers : p.withHeaders t (⟨s, ⟨root, []⟩ :: os⟩ : Blueprint).graph = .error f)

/-- A project that resolves to nothing does so for one of the four reasons. -/
theorem refuses_of_resolve (h : (p.resolve t).2 = .error f) : p.Refuses t f := by
  cases hload : p.load t with
  | error f' =>
    rw [resolve_of_load hload] at h
    exact .load (hload.trans (congrArg _ (Except.error.inj h)))
  | ok loaded =>
    obtain ⟨root, s⟩ := loaded
    obtain ⟨os, ending, hunfolds, -⟩ := Module.walkFrom_unfolds t p.directory s.targetDir root
    rw [resolve_of_unfolds hload hunfolds] at h
    rcases bind_eq_error.mp h with h | ⟨g, hg, h⟩
    · rcases Blueprint.graph?_eq_error.mp h with hfault | ⟨hfault, rfl⟩
      · exact .fault hload hunfolds hfault
      · exact .ending hload hunfolds hfault
    · obtain ⟨hfault, rfl, rfl⟩ := Blueprint.graph?_eq_ok.mp hg
      exact .headers hload hunfolds hfault (map_eq_error.mp h)

/-- For each of the four reasons a project does not resolve. -/
theorem Refuses.resolve (h : p.Refuses t f) : (p.resolve t).2 = .error f := by
  cases h with
  | load load => exact resolve_of_load load
  | fault load unfolds fault =>
    rw [resolve_of_unfolds load unfolds]
    exact bind_eq_error.mpr (.inl (Blueprint.graph?_eq_error.mpr (.inl fault)))
  | ending load unfolds noFault =>
    rw [resolve_of_unfolds load unfolds]
    exact bind_eq_error.mpr (.inl (Blueprint.graph?_eq_error.mpr (.inr ⟨noFault, rfl⟩)))
  | headers load unfolds noFault headers =>
    rw [resolve_of_unfolds load unfolds]
    exact bind_eq_error.mpr (.inr ⟨_, Blueprint.graph?_eq_ok.mpr ⟨noFault, rfl, rfl⟩, map_eq_error.mpr headers⟩)

theorem resolve_eq_error : (p.resolve t).2 = .error f ↔ p.Refuses t f :=
  ⟨refuses_of_resolve, Refuses.resolve⟩

/-- The failures of a resolution. -/
theorem Refuses.kind (h : p.Refuses t f) : f.isOfModules ∨ f.isOfReferences := by
  cases h with
  | load load => exact .inr (Failure.isOfReferences_of_isOfFiles ((failsOnly_load p t).of_error f load))
  | fault load unfolds fault => exact .inl (Blueprint.fault?_isOfModules fault)
  | ending load unfolds noFault => exact .inr (unfolds.isOfReferences rfl)
  | headers load unfolds noFault headers =>
    exact .inr (Failure.isOfReferences_of_isOfFiles ((failsOnly_withHeaders p t _).of_error f headers))

/-- No resolution runs into the bound of the walk. -/
theorem resolve_ne_endless (p : Project) (t : FileTree) : (p.resolve t).2 ≠ .error .endless := by
  intro h
  have hkind := (resolve_eq_error.mp h).kind
  simp [Failure.isOfModules, Failure.isOfReferences, Failure.isOfFiles] at hkind

end Project

end ModuleBuild
