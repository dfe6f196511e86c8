import ModuleBuild.Proofs.Graph.Refusing
import ModuleBuild.Proofs.Module.Reaching

/-!
# Modules among their own submodules

A reference closes a loop if the path to which it leads is that of a module above (`refer_eq_cycle`). Such paths are
in normal form, and so are those of all modules above but the root, whose path is the one that the project gives. So a
loop is found wherever a reference leads back to a descriptor by any spelling, and nowhere else
(`Project.resolve_eq_cycle`), except that a root with a path not in normal form is not recognized by its descriptor
(`Project.resolve_misses_loop`).
-/

namespace ModuleBuild

namespace Module

variable {t : FileTree} {project path directory : Path} {m root : Module} {above : List Module} {reference : String}

/-- References lead to paths in normal form. -/
theorem normalize_of_submodulePath (h : submodulePath t project directory reference = .ok path) :
    path.normalize = path := by
  unfold submodulePath at h
  obtain ⟨b, -, h⟩ := bind_eq_ok.mp h
  have hn := Path.normalize_normalize (directory / Path.ofString reference)
  cases b with
  | false =>
    simp only [Bool.false_eq_true, if_false, pure_eq_ok, Except.ok.injEq] at h
    rwa [← h]
  | true =>
    simp only [if_true, pure_eq_ok, Except.ok.injEq] at h
    have hfile : defaultFile = ⟨.here, [⟨"module.ini", by decide +kernel⟩]⟩ := by decide +kernel
    rw [← h, hfile, Path.join_of_not_isAbsolute rfl]
    exact Path.normalize_concat hn (by decide +kernel)

/-- A reference closes a loop if the path to which it leads is that of `m` or of a module above. -/
theorem refer_eq_cycle {chain : List Path} :
    refer t project m above reference = .error (.cycle path chain) ↔
      submodulePath t project m.directory reference = .ok path ∧ path ∈ (m :: above).map (·.path) ∧
        chain = ((m :: above).map (·.path)).reverse := by
  unfold refer
  cases hpath : submodulePath t project m.directory reference with
  | error e => simp
  | ok q =>
    simp only [mapError_ok, ok_bind, Except.ok.injEq]
    by_cases hq : q ∈ (m :: above).map (·.path)
    · rw [if_pos hq]
      constructor
      · intro h
        obtain ⟨rfl, rfl⟩ : q = path ∧ ((m :: above).map (·.path)).reverse = chain := by simpa using h
        exact ⟨rfl, hq, rfl⟩
      · rintro ⟨rfl, -, rfl⟩
        rfl
    · rw [if_neg hq]
      constructor
      · intro h
        cases hload : load t project q with
        | ok child => simp [hload] at h
        | error e => cases e <;> simp [hload, Failure.ofLoad] at h
      · rintro ⟨rfl, hmem, -⟩
        exact absurd hmem hq

/-- Where a reference is taken up, all paths above but that of the root are in normal form. -/
theorem Reaches.normalize_path {rs : List String} {before : List Occurrence} {o : Occurrence}
    (h : Reaches t project root [] rs before o reference) :
    ∀ m ∈ o.module :: o.ancestors, m.path = root.path ∨ m.path.normalize = m.path := by
  apply h.lineage (P := fun lineage ↦ ∀ m ∈ lineage, m.path = root.path ∨ m.path.normalize = m.path)
  · simp
  · intro m above r child habove href m' hm'
    rcases List.mem_cons.mp hm' with rfl | hm'
    · exact .inr (normalize_of_submodulePath (load_of_refer href).1)
    · exact habove m' hm'

end Module

namespace Project

variable {p : Project} {t : FileTree}

/-- Resolution comes to a reference where a module occurs: the root module is loaded, and nothing that comes before the
reference fails. -/
inductive ComesTo (p : Project) (t : FileTree) (o : Occurrence) (reference : String) : Prop where
  | intro {root : Module} {s : Settings} {before : List Occurrence} (load : p.load t = .ok (root, s))
      (reaches : Module.Reaches t p.directory root [] root.submodules before o reference)
      (noFault : (⟨s, ⟨root, []⟩ :: before⟩ : Blueprint).fault? = none)

/-- A loop is reported where resolution comes to a reference that closes one. -/
theorem resolve_eq_cycle_iff {q : Path} {chain : List Path} : (p.resolve t).2 = .error (.cycle q chain) ↔
    ∃ o r, p.ComesTo t o r ∧ Module.refer t p.directory o.module o.ancestors r = .error (.cycle q chain) := by
  rw [resolve_eq_error]
  constructor
  · intro h
    cases h with
    | load load =>
      have hkind := (failsOnly_load p t).of_error _ load
      simp [Failure.isOfFiles] at hkind
    | fault load unfolds fault =>
      have hkind := Blueprint.fault?_isOfModules fault
      simp [Failure.isOfModules] at hkind
    | ending load unfolds noFault =>
      obtain ⟨o, r, hr, hfail⟩ := Module.unfolds_some_iff.mp unfolds
      exact ⟨o, r, .intro load hr noFault, hfail⟩
    | headers load unfolds noFault headers =>
      have hkind := (failsOnly_withHeaders p t _).of_error _ headers
      simp [Failure.isOfFiles] at hkind
  · rintro ⟨o, r, ⟨load, hr, noFault⟩, hfail⟩
    exact .ending load (hr.unfolds hfail) noFault

/-- A loop is reported exactly if resolution comes to a reference that leads back to a descriptor above, by whatever
spelling, or to the descriptor in which it stands. The root is told by the path that the project gives for it, so that it
takes part only if that path is in normal form. -/
theorem resolve_eq_cycle (p : Project) (t : FileTree) (q : Path) (chain : List Path) :
    (p.resolve t).2 = .error (.cycle q chain) ↔
      ∃ o r, p.ComesTo t o r ∧ Module.submodulePath t p.directory o.module.directory r = .ok q ∧
        (∃ m ∈ o.module :: o.ancestors, m.path.normalize = q.normalize ∧
          (m.path = p.root → p.root.normalize = p.root)) ∧
        chain = ((o.module :: o.ancestors).map (·.path)).reverse := by
  rw [resolve_eq_cycle_iff]
  refine exists_congr fun o ↦ exists_congr fun r ↦ and_congr_right fun hcomes ↦ ?_
  rw [Module.refer_eq_cycle]
  refine and_congr_right fun hq ↦ and_congr_left fun _ ↦ ?_
  obtain ⟨load, hr, -⟩ := hcomes
  have hroot := (Module.path_of_load (module_load_of_load load)).1
  have hn := Module.normalize_of_submodulePath hq
  rw [List.mem_map]
  refine exists_congr fun m ↦ and_congr_right fun hm ↦ ?_
  rw [hn]
  constructor
  · rintro rfl
    exact ⟨hn, fun hmroot ↦ hmroot ▸ hn⟩
  · rintro ⟨hsame, hmroot⟩
    rcases hr.normalize_path m hm with heq | hnormal
    · rw [hroot] at heq
      rw [heq, hmroot heq] at hsame
      rw [heq, hsame]
    · rw [← hnormal, hsame]

/-- A module that refers to its own descriptor. -/
def ownTree : FileTree := .ofFiles (.ofSeconds 100) [
  ("main.ini", "[module]\ntarget=app\nsubmodules=main.ini", .ofSeconds 50),
  ("x/a.txt", "", .ofSeconds 50)]

/-- The root module by another name. -/
def ownRoot : Module where
  path := .ofString "x/../main.ini"
  directory := .here
  target := "app"
  submodules := ["main.ini"]

/-- By another name than that by which it refers to itself, the root is not recognized: its descriptor is loaded a second
time while it is being visited, and its target is found to be declared twice. -/
theorem resolve_misses_loop :
    ({ root := ownRoot.path } : Project).ComesTo ownTree ⟨ownRoot, []⟩ "main.ini" ∧
      Module.submodulePath ownTree .here ownRoot.directory "main.ini" = .ok ownRoot.path.normalize ∧
      (({ root := ownRoot.path } : Project).resolve ownTree).2 =
        .error (.registry (.declaredTwice (.ofString "app"))) := by
  have hload : ({ root := ownRoot.path } : Project).load ownTree = .ok (ownRoot, {}) :=
    toOption_eq_some.mp (by decide +kernel)
  have hpath : Module.submodulePath ownTree .here ownRoot.directory "main.ini" = .ok ownRoot.path.normalize :=
    toOption_eq_some.mp (by decide +kernel)
  exact ⟨.intro hload .here (by decide +kernel), hpath, by decide +kernel⟩

end Project

end ModuleBuild
