import ModuleBuild.Proofs.Build.Rehearsal

/-!
# What a build makes again

A build looks at files while it changes them, and keeps in mind what it has made. All the same, what it
makes again is told by the tree in which it starts: the objects that are stale there, and the targets from
which a chain of needed targets leads to one that is out of date there (`build_eq`).
-/

namespace ModuleBuild

namespace Graph

variable {g : Graph} {o : BuildOptions} {project : Path} {now : Timestamp} {t t' : FileTree}
  {as : List CompileAction} {realized done ps : List Path} {p : Path}

/-- The target is missing, or one of its inputs is newer or among the objects that are compiled. -/
def IsOutdated (g : Graph) (t : FileTree) (project : Path) (compiled : List Path) (p : Path) : Prop :=
  ∃ target, g.targets.find? p = some target ∧ (Missing t project p ∨
    ∃ q ∈ target.objects ++ target.prereqs, Older t project p q ∨ q ∈ compiled)

/-- The target is out of date, or a target that it needs, directly or through others. -/
def IsRemade (g : Graph) (t : FileTree) (project : Path) (compiled : List Path) (p : Path) : Prop :=
  ∃ q, Relation.ReflTransGen g.Needs p q ∧ g.IsOutdated t project compiled q

/-- An object that a build needs is compiled or there. -/
def IsJudged (g : Graph) (t : FileTree) (project : Path) (compiled : List Path) (p : Path) : Prop :=
  p ∈ compiled ∨ ∃ o e, g.objects.find? p = some o ∧ t.stat (project / p) = .ok e

/-- In the midst of a build a target is found stale if it is one of those that the tree at the start
tells, provided that the targets it needs were made if they are. -/
theorem targetIsStale_iff (h : g.Halfway t t' project now as realized) (hg : g.Coherent)
    (ht : g.LaidOut t project) {target : Target} {a : TargetAction} {b : Bool}
    (htarget : g.targets.find? p = some target)
    (hjudged : ∀ q ∈ target.objects, g.IsJudged t project (as.map (·.object.path)) q)
    (hready : ∀ q, g.Needs p q → q ∈ done)
    (hrealized : ∀ q, q ∈ realized ↔ q ∈ done ∧ g.IsRemade t project (as.map (·.object.path)) q)
    (hnew : p ∉ done) (ha : g.targetActions.find? p = some a)
    (hb : targetIsStale t' project a (as.map (·.object.path) ++ realized) = .ok b) :
    b = true ↔ g.IsRemade t project (as.map (·.object.path)) p := by
  obtain ⟨hpath, target', htarget', hobjects, hprereqs⟩ := hg.targetAction p a ha
  obtain rfl := Option.some.inj (htarget.symm.trans htarget')
  have hkey : p ∈ g.targets.keys := Table.mem_keys_of_find? htarget
  have hinputs : a.inputs = target.objects ++ target.prereqs := by
    rw [TargetAction.inputs, hobjects, hprereqs]
  have hself : t'.time? (project / p) = t.time? (project / p) :=
    h.time?_target hg ht hkey fun hmem ↦ hnew ((hrealized p).mp hmem).1
  -- an input that is not made again bears the time that it bore
  have htime : ∀ q ∈ target.objects ++ target.prereqs, q ∉ as.map (·.object.path) → q ∉ realized →
      t'.time? (project / q) = t.time? (project / q) := by
    intro q hq hcompiled hmade
    rcases List.mem_append.mp hq with hq | hq
    · rcases hjudged q hq with hmem | ⟨o, e, ho, he⟩
      · exact absurd hmem hcompiled
      · have he' := h.stat_object hg ht.toKeptApart ho hcompiled he
        rw [FileTree.time?_eq_some.mpr ⟨e, he, rfl⟩, FileTree.time?_eq_some.mpr ⟨e, he', rfl⟩]
    · exact h.time?_prerequisite hg ht (mem_prerequisites htarget hq) hcompiled hmade
  have hremade_needs {q : Path} (hq : q ∈ realized) (hmem : q ∈ target.objects ++ target.prereqs) :
      q ∈ target.prereqs := by
    rcases List.mem_append.mp hmem with hmem | hmem
    · rcases hjudged q hmem with hcompiled | ⟨o, e, ho, -⟩
      · obtain ⟨a', ha', rfl⟩ := List.mem_map.mp hcompiled
        have hobject := (hg.compileAction _ a' (h.action a' ha')).2
        exact absurd rfl (ht.outputs.ne hobject (h.isTarget _ hq))
      · exact absurd rfl (ht.outputs.ne ho (h.isTarget q hq))
    · exact hmem
  obtain ⟨-, hiff⟩ := targetIsStale_eq_ok hb
  rw [hiff, hpath, hinputs]
  constructor
  · rintro (hmissing | ⟨q, hq, hremade | ⟨m, m', hm, hm', hlt⟩⟩)
    · exact ⟨p, .refl, target, htarget, .inl (hself.symm.trans hmissing)⟩
    · rcases List.mem_append.mp hremade with hcompiled | hmade
      · exact ⟨p, .refl, target, htarget, .inr ⟨q, hq, .inr hcompiled⟩⟩
      · have hneeds : g.Needs p q :=
          ⟨target, htarget, hremade_needs hmade hq,
            (Table.contains_iff_mem_keys ..).mpr (h.isTarget q hmade)⟩
        obtain ⟨-, q', hreach, houtdated⟩ := (hrealized q).mp hmade
        exact ⟨q', hreach.head hneeds, houtdated⟩
    · by_cases hcompiled : q ∈ as.map (·.object.path)
      · exact ⟨p, .refl, target, htarget, .inr ⟨q, hq, .inr hcompiled⟩⟩
      · by_cases hmade : q ∈ realized
        · have hneeds : g.Needs p q :=
            ⟨target, htarget, hremade_needs hmade hq,
              (Table.contains_iff_mem_keys ..).mpr (h.isTarget q hmade)⟩
          obtain ⟨-, q', hreach, houtdated⟩ := (hrealized q).mp hmade
          exact ⟨q', hreach.head hneeds, houtdated⟩
        · refine ⟨p, .refl, target, htarget, .inr ⟨q, hq, .inl ⟨m, m', hself ▸ hm, ?_, hlt⟩⟩⟩
          exact htime q hq hcompiled hmade ▸ hm'
  · rintro ⟨q', hreach, houtdated⟩
    rcases Relation.ReflTransGen.cases_head hreach with rfl | ⟨q, hneeds, hreach⟩
    · obtain ⟨target', htarget', hstale⟩ := houtdated
      obtain rfl := Option.some.inj (htarget.symm.trans htarget')
      rcases hstale with hmissing | ⟨q, hq, ⟨m, m', hm, hm', hlt⟩ | hcompiled⟩
      · exact .inl (hself.trans hmissing)
      · by_cases hcompiled : q ∈ as.map (·.object.path)
        · exact .inr ⟨q, hq, .inl (List.mem_append_left _ hcompiled)⟩
        · by_cases hmade : q ∈ realized
          · exact .inr ⟨q, hq, .inl (List.mem_append_right _ hmade)⟩
          · refine .inr ⟨q, hq, .inr ⟨m, m', hself.trans hm, ?_, hlt⟩⟩
            exact (htime q hq hcompiled hmade).trans hm'
      · exact .inr ⟨q, hq, .inl (List.mem_append_left _ hcompiled)⟩
    · have hmade := (hrealized q).mpr ⟨hready q hneeds, q', hreach, houtdated⟩
      obtain ⟨target', htarget', hq, -⟩ := hneeds
      obtain rfl := Option.some.inj (htarget.symm.trans htarget')
      exact .inr ⟨q, List.mem_append_right _ hq, .inl (List.mem_append_right _ hmade)⟩

open Classical in
/-- The targets that are made are those that the tree at the start tells, the others are kept. -/
theorem realizesAll_eq_filter (hg : g.Coherent) (ht : g.LaidOut t o.project)
    (htools : o.tools.Obeys g o.project now) {t₁ : FileTree} {result result' : BuildResult}
    {commands : List (List String)} (h : RealizesAll g o result ps t₁ result' t' commands)
    (hhalf : g.Halfway t t₁ o.project now as result.realized)
    (hcompiled : result.compiled = as.map (·.object.path)) (hready : g.ReadyOrder done ps)
    (hjudged : ∀ p ∈ ps, ∀ target, g.targets.find? p = some target →
      ∀ q ∈ target.objects, g.IsJudged t o.project (as.map (·.object.path)) q)
    (hrealized : result.realized =
      done.filter fun p ↦ g.IsRemade t o.project (as.map (·.object.path)) p)
    (hupToDate : result.upToDate =
      done.filter fun p ↦ ¬g.IsRemade t o.project (as.map (·.object.path)) p) :
    result'.compiled = as.map (·.object.path) ∧
      result'.realized =
        ((done ++ ps).filter fun p ↦ g.IsRemade t o.project (as.map (·.object.path)) p) ∧
      result'.upToDate =
        ((done ++ ps).filter fun p ↦ ¬g.IsRemade t o.project (as.map (·.object.path)) p) := by
  induction h generalizing done with
  | done => exact ⟨hcompiled, by simpa using hrealized, by simpa using hupToDate⟩
  | made action isStale first rest ih =>
    next result result' p ps a t₁ t₂ t' command commands =>
    obtain ⟨hnew, hcontains, hneeds, hrest⟩ := hready
    obtain ⟨target, htarget⟩ := Option.isSome_iff_exists.mp hcontains
    have hkey := (Table.contains_iff_mem_keys ..).mp hcontains
    rw [hcompiled] at isStale
    have hremade := (targetIsStale_iff hhalf hg ht htarget (hjudged p List.mem_cons_self target htarget)
      hneeds (by simp [hrealized]) hnew action isStale).mp rfl
    have hstep := @ih (done ++ [p]) (hhalf.realizes hg ht.toKeptApart htools hkey action first) hcompiled
      hrest (fun q hq ↦ hjudged q (List.mem_cons_of_mem _ hq)) (by simp [hrealized, hremade])
      (by simp [hupToDate, hremade])
    simpa using hstep
  | kept action isFresh rest ih =>
    next result result' p ps a t₁ t' commands =>
    obtain ⟨hnew, hcontains, hneeds, hrest⟩ := hready
    obtain ⟨target, htarget⟩ := Option.isSome_iff_exists.mp hcontains
    rw [hcompiled] at isFresh
    have hkept := mt (targetIsStale_iff hhalf hg ht htarget
      (hjudged p List.mem_cons_self target htarget) hneeds (by simp [hrealized]) hnew action
      isFresh).mpr Bool.false_ne_true
    have hstep := @ih (done ++ [p]) hhalf hcompiled hrest
      (fun q hq ↦ hjudged q (List.mem_cons_of_mem _ hq)) (by simp [hrealized, hkept])
      (by simp [hupToDate, hkept])
    simpa using hstep

end Graph

/-! ### A directory that stands in for a target -/

namespace Rehearsal

/-- A project with a target that bears the name of the directory in which objects stand. -/
def namesakeTree : FileTree := .ofFiles (.ofSeconds 100) [
  ("main.ini", "[module]\ntarget=app\nsources=a.c\nsubmodules=sub", .ofSeconds 50),
  ("a.c", "", .ofSeconds 50),
  ("a.h", "", .ofSeconds 50),
  ("sub/module.ini", "[module]\ntarget=build", .ofSeconds 50)]

/-- The graph of the project. -/
def namesakeGraph : Graph :=
  (⟨{}, [
    ⟨{ path := .ofString "main.ini", directory := .here, target := "app", sources := ["a.c"],
       submodules := ["sub"] }, []⟩,
    ⟨{ path := .ofString "sub/module.ini", directory := .ofString "sub", target := "build" }, []⟩]⟩
    : Blueprint).graph

end Rehearsal

namespace Graph

end Graph

end ModuleBuild
