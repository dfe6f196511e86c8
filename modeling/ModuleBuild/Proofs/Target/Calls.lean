import ModuleBuild.Proofs.Graph.Assembling
import ModuleBuild.Proofs.Target.Collected
import ModuleBuild.Target.Registry

/-!
# One call after another

A registry is called to declare targets and to attach to them what modules say. A call changes the target that it finds
in its place, step by step, which comes to what the registry's operations do (`Registry.steps_run`). Whatever calls are
made, in whatever order, the targets are those that were declared, each with the first occurrences of what was attached
to it, and calls that are refused change nothing (`Registry.calls_orderly`).
-/

namespace ModuleBuild

namespace Registry

/-- A call on a registry. -/
inductive Call where
  | declare (name : String)
  | attachObjects (target : Path) (objects : List Path)
  | attachPrereqs (target : Path) (names : List String)
  | attachLibs (target : Path) (names : List String)

/-- Steps of a call. What they change stays changed even if a later one fails. -/
abbrev Steps := ExceptT RegistryError (StateM Registry)

/-- The target at a path, which must have been declared. -/
def Steps.fetch (p : Path) : Steps Target := ExceptT.mk fun r ↦ (r.get p, r)

/-- Put a target at a path. -/
def Steps.store (p : Path) (t : Target) : Steps Unit :=
  modify fun r ↦ { r with targets := r.targets.insert p t }

namespace Call

/-- What a call does, one step after another. -/
def steps : Call → Steps Unit
  | declare name => do
    let r ← getThe Registry
    if r.contains (r.targetPath name) then throw (.declaredTwice (r.targetPath name))
    else Steps.store (r.targetPath name) { path := r.targetPath name }
  | attachObjects p objects => do
    let t ← Steps.fetch p
    Steps.store p { t with objects := appendNew t.objects objects }
  | attachPrereqs p names => do
    let r ← getThe Registry
    let t ← Steps.fetch p
    Steps.store p { t with prereqs := appendNew t.prereqs (names.map r.targetPath) }
    let t ← Steps.fetch p
    if t.isArchive then return
    else if names.any fun n ↦ TargetKind.ofPath (.ofString n) = .archive then
      Steps.store p { t with ldflags := appendNew t.ldflags [r.searchFlag] }
    else return
  | attachLibs p names => do
    let t ← Steps.fetch p
    if t.isArchive then return else Steps.store p { t with libs := appendNew t.libs names }

/-- What a call comes to: the operation of the registry. -/
def perform (r : Registry) : Call → Except RegistryError Registry
  | declare name => r.declare name
  | attachObjects p objects => r.attachObjects p objects
  | attachPrereqs p names => r.attachPrereqs p names
  | attachLibs p names => r.attachLibs p names

end Call

/-- Calls that are made one after another, with their answers. -/
def calls (cs : List Call) : StateM Registry (List (Except RegistryError Unit)) := cs.mapM fun c ↦ c.steps.run

section Running

variable {α β : Type} {r r' : Registry} {p : Path} {t : Target}

theorem fetch_bind_run (f : Target → Steps β) : (Steps.fetch p >>= f).run.run r =
    match r.targets.find? p with
    | some t => (f t).run.run r
    | none => (.error (.undeclared p), r) := by
  have hget : (Steps.fetch p).run.run r = (r.get p, r) := rfl
  rw [ExceptT.run_bind, StateT.run_bind, hget, Registry.get]
  cases r.targets.find? p with
  | none => rfl
  | some t => rfl

theorem get_bind_run (f : Registry → Steps β) : (getThe Registry >>= f).run.run r = (f r).run.run r := rfl

theorem store_bind_run (f : Unit → Steps β) : (Steps.store p t >>= f).run.run r =
    (f ()).run.run { r with targets := r.targets.insert p t } := rfl

theorem store_run : (Steps.store p t).run.run r = (.ok (), { r with targets := r.targets.insert p t }) := rfl

theorem update_eq (r : Registry) (p : Path) (f : Target → Target) : r.update p f =
    match r.targets.find? p with
    | some t => .ok { r with targets := r.targets.insert p (f t) }
    | none => .error (.undeclared p) := by
  rw [update, Registry.get]
  cases r.targets.find? p with
  | none => rfl
  | some t => rfl

/-- The steps of a call do what its operation does. The registry stays as it is if this is refused. -/
theorem steps_run (c : Call) (r : Registry) : c.steps.run.run r = match c.perform r with
    | .ok r' => (.ok (), r')
    | .error e => (.error e, r) := by
  cases c with
  | declare name =>
    rw [Call.steps, get_bind_run, Call.perform, declare]
    by_cases h : r.contains (r.targetPath name)
    · simp only [h, if_true]
      rfl
    · simp only [h]
      rfl
  | attachObjects p objects =>
    rw [Call.steps, fetch_bind_run, Call.perform, attachObjects, update_eq]
    cases r.targets.find? p with
    | none => rfl
    | some t => rfl
  | attachPrereqs p names =>
    rw [Call.steps, get_bind_run, fetch_bind_run, Call.perform, attachPrereqs, update_eq]
    cases r.targets.find? p with
    | none => rfl
    | some t =>
      -- the second look-up finds what was stored, and where a flag is added this is stored over it
      simp only [store_bind_run, fetch_bind_run, Table.find?_insert_self]
      have hkind :
          ({ t with prereqs := appendNew t.prereqs (names.map r.targetPath) } : Target).isArchive = t.isArchive := rfl
      cases harchive : t.isArchive with
      | true =>
        simp only [hkind, harchive, if_true, Bool.not_true, Bool.false_and, Bool.false_eq_true, if_false]
        rfl
      | false =>
        cases hnames : names.any fun n ↦ TargetKind.ofPath (.ofString n) = .archive with
        | true =>
          simp only [hkind, harchive, Bool.false_eq_true, if_false, Bool.not_false, Bool.true_and, if_true, store_run,
            Table.insert_insert]
        | false =>
          simp only [hkind, harchive, Bool.false_eq_true, if_false, Bool.not_false, Bool.true_and]
          rfl
  | attachLibs p names =>
    rw [Call.steps, fetch_bind_run, Call.perform, attachLibs, update_eq]
    cases hfind : r.targets.find? p with
    | none => rfl
    | some t =>
      by_cases harchive : t.isArchive
      · simp only [harchive, if_true, Table.insert_eq_self hfind]
        rfl
      · simp only [harchive]
        rfl

end Running

/-! ### What calls say -/

namespace Call

/-- The path of the target that a call declares. -/
def declared? (directory : Path) : Call → Option Path
  | declare name => some (directory / Path.ofString name)
  | attachObjects .. | attachPrereqs .. | attachLibs .. => none

/-- The target to which a call attaches something. -/
def target? : Call → Option Path
  | declare _ => none
  | attachObjects p _ | attachPrereqs p _ | attachLibs p _ => some p

/-- The objects that a call attaches to a target. -/
def objectsFor (p : Path) : Call → List Path
  | attachObjects q objects => if q = p then objects else []
  | declare _ | attachPrereqs .. | attachLibs .. => []

/-- The names of prerequisites that a call attaches to a target. -/
def namesFor (p : Path) : Call → List String
  | attachPrereqs q names => if q = p then names else []
  | declare _ | attachObjects .. | attachLibs .. => []

/-- The libraries that a call attaches to a target. -/
def libsFor (p : Path) : Call → List String
  | attachLibs q names => if q = p then names else []
  | declare _ | attachObjects .. | attachPrereqs .. => []

/-- What a call answers if the given targets have been declared before. -/
def verdict (directory : Path) (declared : List Path) : Call → Except RegistryError Unit
  | declare name =>
    if directory / Path.ofString name ∈ declared then .error (.declaredTwice (directory / Path.ofString name))
    else .ok ()
  | attachObjects p _ | attachPrereqs p _ | attachLibs p _ => if p ∈ declared then .ok () else .error (.undeclared p)

/-- A call that is not refused declares a new target, or attaches something to a declared one. -/
theorem verdict_eq_ok {directory : Path} {declared : List Path} {c : Call} {u : Unit} :
    c.verdict directory declared = .ok u ↔
      (∀ p ∈ c.declared? directory, p ∉ declared) ∧ ∀ p ∈ c.target?, p ∈ declared := by
  cases c <;> simp [verdict, declared?, target?]

/-- A call attaches something to its target only. -/
theorem for_eq_nil {c : Call} {p : Path} (h : c.target? ≠ some p) :
    c.objectsFor p = [] ∧ c.namesFor p = [] ∧ c.libsFor p = [] := by
  cases c <;> simp_all [target?, objectsFor, namesFor, libsFor]

end Call

/-- The targets that calls declare, in order. -/
def declaredBy (directory : Path) (cs : List Call) : List Path := cs.filterMap (·.declared? directory)

/-- The target at a path with everything that calls attach to it. -/
def targetOf (directory : Path) (cs : List Call) (p : Path) : Target :=
  .collected directory p (cs.flatMap (·.objectsFor p)) (cs.flatMap (·.namesFor p)) (cs.flatMap (·.libsFor p))

/-- The targets that calls declare, with everything that they attach. -/
def registryOf (directory : Path) (cs : List Call) : Registry :=
  ⟨directory, .tabulate (declaredBy directory cs) (targetOf directory cs)⟩

/-- Calls declare no target twice, and attach to declared targets only. -/
structure Coherent (directory : Path) (cs : List Call) : Prop where
  nodup : (declaredBy directory cs).Nodup
  target : ∀ c ∈ cs, ∀ p, c.target? = some p → p ∈ declaredBy directory cs

section Coherent

variable {directory p : Path} {cs : List Call} {c : Call}

theorem declaredBy_concat (directory : Path) (cs : List Call) (c : Call) :
    declaredBy directory (cs ++ [c]) = declaredBy directory cs ++ (c.declared? directory).toList := by
  rw [declaredBy, List.filterMap_append]
  cases h : c.declared? directory <;> simp [h, declaredBy]

theorem targetOf_concat (directory : Path) (cs : List Call) (c : Call) (p : Path) :
    targetOf directory (cs ++ [c]) p =
      .collected directory p (cs.flatMap (·.objectsFor p) ++ c.objectsFor p)
        (cs.flatMap (·.namesFor p) ++ c.namesFor p) (cs.flatMap (·.libsFor p) ++ c.libsFor p) := by
  simp [targetOf]

/-- A call leaves the targets alone to which it attaches nothing. -/
theorem targetOf_concat_of_ne (h : c.target? ≠ some p) :
    targetOf directory (cs ++ [c]) p = targetOf directory cs p := by
  obtain ⟨hobjects, hnames, hlibs⟩ := Call.for_eq_nil h
  rw [targetOf_concat, hobjects, hnames, hlibs, List.append_nil, List.append_nil, List.append_nil, targetOf]

/-- A target is empty if nothing is attached to it. -/
theorem Coherent.targetOf_eq (h : Coherent directory cs) (hp : p ∉ declaredBy directory cs) :
    targetOf directory cs p = { path := p } := by
  have hnone {c : Call} (hc : c ∈ cs) : c.target? ≠ some p := fun hcp ↦ hp (h.target c hc p hcp)
  have hobjects : cs.flatMap (·.objectsFor p) = [] :=
    List.flatMap_eq_nil_iff.mpr fun c hc ↦ (Call.for_eq_nil (hnone hc)).1
  have hnames : cs.flatMap (·.namesFor p) = [] :=
    List.flatMap_eq_nil_iff.mpr fun c hc ↦ (Call.for_eq_nil (hnone hc)).2.1
  have hlibs : cs.flatMap (·.libsFor p) = [] :=
    List.flatMap_eq_nil_iff.mpr fun c hc ↦ (Call.for_eq_nil (hnone hc)).2.2
  rw [targetOf, hobjects, hnames, hlibs, Target.collected_nil]

theorem coherent_nil (directory : Path) : Coherent directory [] := ⟨List.nodup_nil, by simp⟩

/-- A call that is not refused goes on declaring no target twice, and attaching to declared ones. -/
theorem Coherent.concat (h : Coherent directory cs) {u : Unit}
    (hc : c.verdict directory (declaredBy directory cs) = .ok u) : Coherent directory (cs ++ [c]) := by
  obtain ⟨hnew, htarget⟩ := Call.verdict_eq_ok.mp hc
  refine ⟨?_, fun c' hc' p hp ↦ ?_⟩
  · rw [declaredBy_concat]
    refine List.nodup_append.mpr ⟨h.nodup, by cases c.declared? directory <;> simp, fun p hp q hq hpq ↦ ?_⟩
    exact hnew q (by simpa using hq) (hpq ▸ hp)
  · rw [declaredBy_concat]
    refine List.mem_append_left _ ?_
    rcases List.mem_append.mp hc' with hc' | hc'
    · exact h.target c' hc' p hp
    · exact htarget p (List.mem_singleton.mp hc' ▸ hp)

/-- Declaring a target adds an empty one, unless it is there. -/
theorem Coherent.declare (h : Coherent directory cs) (name : String) :
    (registryOf directory cs).declare name =
      if directory / Path.ofString name ∈ declaredBy directory cs
      then .error (.declaredTwice (directory / Path.ofString name))
      else .ok (registryOf directory (cs ++ [.declare name])) := by
  have hkeys : declaredBy directory (cs ++ [.declare name]) =
      declaredBy directory cs ++ [directory / Path.ofString name] := declaredBy_concat directory cs (.declare name)
  have hsame : targetOf directory (cs ++ [.declare name]) = targetOf directory cs :=
    funext fun p ↦ targetOf_concat_of_ne (by simp [Call.target?])
  rw [registryOf, registryOf, declare_tabulate h.nodup h.targetOf_eq, hkeys, hsame]

/-- Attaching something to a declared target changes this target alone. -/
theorem registryOf_attach (hc : c.target? = some p) (hdeclared : c.declared? directory = none) {t : Target}
    (ht : targetOf directory (cs ++ [c]) p = t) :
    registryOf directory (cs ++ [c]) =
      ⟨directory, .tabulate (declaredBy directory cs) (Function.update (targetOf directory cs) p t)⟩ := by
  have htargets : targetOf directory (cs ++ [c]) = Function.update (targetOf directory cs) p t := by
    funext q
    by_cases hq : q = p
    · rw [hq, Function.update_self, ht]
    · rw [Function.update_of_ne hq, targetOf_concat_of_ne (by simpa [hc] using Ne.symm hq)]
  rw [registryOf, declaredBy_concat, hdeclared, Option.toList_none, List.append_nil, htargets]

/-- A call is refused if there is a reason, or else declares and attaches what it says. -/
theorem Coherent.perform (h : Coherent directory cs) (c : Call) :
    c.perform (registryOf directory cs) = match c.verdict directory (declaredBy directory cs) with
      | .ok () => .ok (registryOf directory (cs ++ [c]))
      | .error e => .error e := by
  cases c with
  | declare name =>
    rw [Call.perform, Call.verdict, h.declare]
    by_cases hold : directory / Path.ofString name ∈ declaredBy directory cs
    · rw [if_pos hold, if_pos hold]
    · rw [if_neg hold, if_neg hold]
  | attachObjects p objects =>
    rw [Call.perform, Call.verdict]
    by_cases hp : p ∈ declaredBy directory cs
    · have ht : targetOf directory (cs ++ [.attachObjects p objects]) p =
          (targetOf directory cs p).withObjects objects := by
        simp [targetOf, Target.withObjects_collected, Call.objectsFor, Call.namesFor, Call.libsFor]
      rw [if_pos hp, registryOf_attach rfl rfl ht, registryOf, attachObjects_tabulate h.nodup _ hp]
    · rw [if_neg hp, registryOf, attachObjects, update_tabulate_of_notMem _ _ hp]
  | attachPrereqs p names =>
    rw [Call.perform, Call.verdict]
    by_cases hp : p ∈ declaredBy directory cs
    · have ht : targetOf directory (cs ++ [.attachPrereqs p names]) p =
          (targetOf directory cs p).withPrereqs directory names := by
        simp [targetOf, Target.withPrereqs_collected, Call.objectsFor, Call.namesFor, Call.libsFor]
      rw [if_pos hp, registryOf_attach rfl rfl ht, registryOf, attachPrereqs_tabulate h.nodup _ hp]
    · rw [if_neg hp, registryOf, attachPrereqs, update_tabulate_of_notMem _ _ hp]
  | attachLibs p names =>
    rw [Call.perform, Call.verdict]
    by_cases hp : p ∈ declaredBy directory cs
    · have ht : targetOf directory (cs ++ [.attachLibs p names]) p = (targetOf directory cs p).withLibs names := by
        simp [targetOf, Target.withLibs_collected, Call.objectsFor, Call.namesFor, Call.libsFor]
      rw [if_pos hp, registryOf_attach rfl rfl ht, registryOf, attachLibs_tabulate h.nodup _ hp]
    · rw [if_neg hp, registryOf, attachLibs, update_tabulate_of_notMem _ _ hp]

/-- The steps of a call that has a reason to be refused change nothing, those of another change what it says. -/
theorem Coherent.steps_run (h : Coherent directory cs) (c : Call) :
    c.steps.run.run (registryOf directory cs) = match c.verdict directory (declaredBy directory cs) with
      | .ok () => (.ok (), registryOf directory (cs ++ [c]))
      | .error e => (.error e, registryOf directory cs) := by
  rw [Registry.steps_run, h.perform]
  cases c.verdict directory (declaredBy directory cs) <;> rfl

end Coherent

/-! ### Runs -/

section Runs

/-- What calls on a new registry answer. -/
def answers (directory : Path) (cs : List Call) : List (Except RegistryError Unit) :=
  ((calls cs).run { directory := directory }).1

/-- The registry after calls on a new one. -/
def after (directory : Path) (cs : List Call) : Registry := ((calls cs).run { directory := directory }).2

/-- The calls that are not refused. -/
def granted (directory : Path) (cs : List Call) : List Call :=
  ((cs.zip (answers directory cs)).filter (·.2.isOk)).map Prod.fst

theorem calls_append_run (before rest : List Call) (r : Registry) :
    (calls (before ++ rest)).run r =
      (((calls before).run r).1 ++ ((calls rest).run ((calls before).run r).2).1,
        ((calls rest).run ((calls before).run r).2).2) := by
  rw [calls, List.mapM_append]
  rfl

theorem length_calls (cs : List Call) (r : Registry) : ((calls cs).run r).1.length = cs.length := by
  induction cs generalizing r with
  | nil => rfl
  | cons c cs ih =>
    rw [← List.singleton_append, calls_append_run, List.length_append, List.length_append, ih]
    rfl

variable (directory : Path)

theorem length_answers (cs : List Call) : (answers directory cs).length = cs.length := length_calls cs _

theorem exists_answers_append (before rest : List Call) :
    ∃ later, answers directory (before ++ rest) = answers directory before ++ later :=
  ⟨_, congrArg Prod.fst (calls_append_run before rest _)⟩

theorem answers_concat (cs : List Call) (c : Call) :
    answers directory (cs ++ [c]) = answers directory cs ++ [(c.steps.run.run (after directory cs)).1] :=
  congrArg Prod.fst (calls_append_run cs [c] _)

theorem after_concat (cs : List Call) (c : Call) :
    after directory (cs ++ [c]) = (c.steps.run.run (after directory cs)).2 :=
  congrArg Prod.snd (calls_append_run cs [c] _)

/-- Later calls take back nothing. -/
theorem exists_granted_append (before rest : List Call) :
    ∃ later, granted directory (before ++ rest) = granted directory before ++ later := by
  obtain ⟨later, hlater⟩ := exists_answers_append directory before rest
  refine ⟨((rest.zip later).filter (·.2.isOk)).map Prod.fst, ?_⟩
  rw [granted, hlater, List.zip_append (length_answers directory before).symm, List.filter_append, List.map_append]
  rfl

theorem granted_concat (cs : List Call) (c : Call) :
    granted directory (cs ++ [c]) =
      granted directory cs ++ if (c.steps.run.run (after directory cs)).1.isOk then [c] else [] := by
  rw [granted, answers_concat, List.zip_append (length_answers directory cs).symm, List.filter_append, List.map_append]
  cases h : (c.steps.run.run (after directory cs)).1.isOk <;> simp [granted, h]

/-- The calls that are granted are coherent, and the registry holds what they declare and attach. -/
theorem coherent_granted (cs : List Call) :
    Coherent directory (granted directory cs) ∧ after directory cs = registryOf directory (granted directory cs) := by
  induction cs using List.reverseRecOn with
  | nil => exact ⟨coherent_nil directory, rfl⟩
  | append_singleton cs c ih =>
    obtain ⟨hcoherent, hafter⟩ := ih
    rw [granted_concat, after_concat, hafter, hcoherent.steps_run c]
    -- the last call is granted, and then it is one of the calls that the registry is told by, or it is refused
    cases hverdict : c.verdict directory (declaredBy directory (granted directory cs)) with
    | ok => exact ⟨hcoherent.concat hverdict, rfl⟩
    | error e =>
      have hsame : granted directory cs ++ [] = granted directory cs := List.append_nil _
      exact ⟨hsame.symm ▸ hcoherent, congrArg (registryOf directory) hsame.symm⟩

/-- What a call answers is decided by the targets declared before. -/
theorem answers_concat_eq (cs : List Call) (c : Call) :
    answers directory (cs ++ [c]) =
      answers directory cs ++ [c.verdict directory (declaredBy directory (granted directory cs))] := by
  obtain ⟨hcoherent, hafter⟩ := coherent_granted directory cs
  rw [answers_concat, hafter, hcoherent.steps_run c]
  cases c.verdict directory (declaredBy directory (granted directory cs)) <;> rfl

/-- A call that is refused changes nothing. -/
theorem after_concat_of_error {cs : List Call} {c : Call} {e : RegistryError}
    (h : c.verdict directory (declaredBy directory (granted directory cs)) = .error e) :
    after directory (cs ++ [c]) = after directory cs := by
  obtain ⟨hcoherent, hafter⟩ := coherent_granted directory cs
  rw [after_concat, hafter, hcoherent.steps_run c, h]

end Runs

/-! ### Order -/

/-- What holds of the registry after calls on a new one. -/
structure Orderly (directory : Path) (cs : List Call) : Prop where
  /-- The targets come in the order of their declarations. -/
  declared : (after directory cs).targets.values.map (·.path) = declaredBy directory (granted directory cs)
  /-- No two targets have one path. -/
  distinct : ((after directory cs).targets.values.map (·.path)).Nodup
  /-- A target has what was attached to it. -/
  contents : ∀ t ∈ (after directory cs).targets.values, t.Holds directory
    ((granted directory cs).flatMap (·.objectsFor t.path)) ((granted directory cs).flatMap (·.namesFor t.path))
    ((granted directory cs).flatMap (·.libsFor t.path))
  /-- Targets stay, and their lists grow at their ends. -/
  grows : ∀ before rest, cs = before ++ rest → ∃ kept later, (after directory cs).targets.values = kept ++ later ∧
    List.Forall₂ Target.Extends (after directory before).targets.values kept
  /-- A target is declared once, and nothing is attached to one that has not been declared. -/
  answered : ∀ before c rest, cs = before ++ c :: rest → (answers directory cs)[before.length]? =
    some (c.verdict directory ((after directory before).targets.values.map (·.path)))
  /-- A call that is refused changes nothing. -/
  refused : ∀ before c rest e, cs = before ++ c :: rest → (answers directory cs)[before.length]? = some (.error e) →
    after directory (before ++ [c]) = after directory before

/-- The targets are those that were declared, in order. -/
theorem paths_after (directory : Path) (cs : List Call) :
    (after directory cs).targets.values.map (·.path) = declaredBy directory (granted directory cs) := by
  have hpath : (fun p ↦ (targetOf directory (granted directory cs) p).path) = id := rfl
  rw [(coherent_granted directory cs).2, registryOf, Table.values_tabulate, List.map_map, Function.comp_def, hpath,
    List.map_id]

/-- More calls declare further targets, and attach more to those that are there. -/
theorem registryOf_append (directory : Path) (cs more : List Call) :
    ∃ kept later, (registryOf directory (cs ++ more)).targets.values = kept ++ later ∧
      List.Forall₂ Target.Extends (registryOf directory cs).targets.values kept := by
  refine ⟨(declaredBy directory cs).map (targetOf directory (cs ++ more)),
    (declaredBy directory more).map (targetOf directory (cs ++ more)), ?_, ?_⟩
  · rw [registryOf, Table.values_tabulate, declaredBy, List.filterMap_append, List.map_append]
    rfl
  · rw [registryOf, Table.values_tabulate, List.forall₂_map_left_iff, List.forall₂_map_right_iff, List.forall₂_same]
    intro p _
    simp only [targetOf, List.flatMap_append]
    exact Target.extends_collected ..

/-- Whatever calls are made on a new registry, its targets are those that were declared, with what was attached. -/
theorem calls_orderly (directory : Path) (cs : List Call) : Orderly directory cs := by
  obtain ⟨hcoherent, hafter⟩ := coherent_granted directory cs
  have hanswered : ∀ before c rest, cs = before ++ c :: rest → (answers directory cs)[before.length]? =
      some (c.verdict directory ((after directory before).targets.values.map (·.path))) := by
    rintro before c rest rfl
    obtain ⟨later, hlater⟩ := exists_answers_append directory (before ++ [c]) rest
    rw [List.append_assoc, List.singleton_append] at hlater
    rw [hlater, answers_concat_eq, paths_after, List.append_assoc, ← length_answers directory before]
    simp
  exact {
    declared := paths_after directory cs
    distinct := paths_after directory cs ▸ hcoherent.nodup
    contents := by
      intro t ht
      rw [hafter, registryOf, Table.values_tabulate] at ht
      obtain ⟨p, -, rfl⟩ := List.mem_map.mp ht
      exact Target.holds_collected ..
    grows := by
      rintro before rest rfl
      obtain ⟨more, hmore⟩ := exists_granted_append directory before rest
      rw [hafter, hmore, (coherent_granted directory before).2]
      exact registryOf_append directory _ more
    answered := hanswered
    refused := by
      intro before c rest e hcs he
      rw [hanswered before c rest hcs, paths_after] at he
      exact after_concat_of_error directory (Option.some.inj he) }

end Registry

end ModuleBuild
