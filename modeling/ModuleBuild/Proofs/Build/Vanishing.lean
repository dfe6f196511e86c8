import ModuleBuild.Proofs.Build.Rehearsal
import ModuleBuild.Proofs.Build.Staleness
import ModuleBuild.Proofs.FileTree.Making

/-!
# Headers that have vanished

An object whose header is gone is stale. So it is if the header was deleted, or the directory of the header. But if a
file has come to stand in place of that directory, the header is not just missing: looking it up is refused, and that
ends the build. Finding out which objects are stale fails exactly if judging one of them comes to such a path
(`Graph.staleActions_fails_iff`).
-/

namespace ModuleBuild

/-! ### Paths that lead through files -/

theorem Path.IsNameable.of_append {a : Anchor} {ss ss' : List Segment} (h : IsNameable ⟨a, ss ++ ss'⟩) :
    IsNameable ⟨a, ss⟩ := by
  induction ss' using List.reverseRecOn with
  | nil => rwa [List.append_nil] at h
  | append_singleton ss' s ih =>
    rw [← List.append_assoc] at h
    exact ih h.of_concat

namespace FileTree

variable {t : FileTree} {p : Path}

/-- A file is found where a directory would have to be for the path to be followed. -/
def MeetsFile (t : FileTree) (p : Path) : Prop :=
  ∃ ss s ss' bytes m, p.segments = ss ++ s :: ss' ∧ t.stat ⟨p.anchor, ss⟩ = .ok (.file bytes m)

/-- Names that are not too long cannot be followed where something is missing or a file stands. -/
theorem refusal_of_names_le {l : Location} {ss : List Segment} {r : Refusal}
    (hsize : ∀ s ∈ ss, s = .up ∨ s.text.utf8ByteSize ≤ maxName) (h : t.enterAll l ss = .error r) :
    r = .notFound ∨ r = .notDirectory ∧ ∃ ss₁ s ss₂ l' bytes m, ss = ss₁ ++ s :: ss₂ ∧
      t.enterAll l ss₁ = .ok l' ∧ t.entry? l' = some (.file bytes m) := by
  induction ss generalizing l with
  | nil => cases h
  | cons s ss ih =>
    rcases bind_eq_error.mp h with h | ⟨l', henter, h⟩
    · unfold enter at h
      split at h
      · exact .inl (Except.error.inj h).symm
      · next bytes m hfile => exact .inr ⟨(Except.error.inj h).symm, [], s, ss, l, bytes, m, rfl, rfl, hfile⟩
      · rcases hsize s List.mem_cons_self with rfl | hs
        · cases h
        · rw [if_pos hs] at h
          split at h <;> cases h
    · rcases ih (fun s' hs' ↦ hsize s' (List.mem_cons_of_mem _ hs')) h with
        hr | ⟨hr, ss₁, s', ss₂, l'', bytes, m, rfl, hall, hfile⟩
      · exact .inl hr
      · refine .inr ⟨hr, s :: ss₁, s', ss₂, l'', bytes, m, rfl, ?_, hfile⟩
        rw [enterAll, henter]
        exact hall

/-- A path that is not too long is refused exactly if it leads through a file. -/
theorem modified?_eq_error (hn : p.IsNameable) {e : FileError} :
    t.modified? p = .error e ↔ t.MeetsFile p ∧ e = ⟨.notDirectory, p⟩ := by
  have hlocate := locate_of_isNameable t hn
  have hfront {ss ss' : List Segment} (hsegments : p.segments = ss ++ ss') :
      t.locate ⟨p.anchor, ss⟩ = t.enterAll (if p.isAbsolute then [] else t.current) ss := by
    have hn' : Path.IsNameable ⟨p.anchor, ss ++ ss'⟩ := hsegments ▸ hn
    exact locate_of_isNameable t hn'.of_append
  constructor
  · intro h
    cases hl : t.locate p with
    | ok l =>
      unfold modified? stat at h
      rw [hl, ok_bind] at h
      cases he : t.entry? l <;> simp [he] at h
    | error r =>
      have hstat : t.stat p = .error r := by rw [stat, hl, error_bind]
      rw [hlocate] at hl
      rcases refusal_of_names_le hn.names_le hl with rfl | ⟨rfl, ss, s, ss', l, bytes, m, hsegments, hall, hfile⟩
      · simp [modified?, hstat] at h
      · rw [modified?, hstat] at h
        refine ⟨⟨ss, s, ss', bytes, m, hsegments, ?_⟩, (Except.error.inj h).symm⟩
        rw [stat, hfront hsegments, hall, ok_bind, hfile]
  · rintro ⟨⟨ss, s, ss', bytes, m, hsegments, hfile⟩, rfl⟩
    obtain ⟨hway, hentry⟩ := stat_eq_ok.mp hfile
    rw [hfront hsegments] at hway
    have hstat : t.stat p = .error .notDirectory := by
      rw [stat, hlocate, hsegments, enterAll_append, hway, ok_bind, enterAll, enter, hentry]
      rfl
    rw [modified?, hstat]

end FileTree

namespace Graph

open FileTree RunM

variable {g : Graph} {o : BuildOptions} {t : FileTree} {project p q : Path} {x : ObjectRecord} {f : Failure}
  {qs : List Path} {as : List CompileAction}

/-! ### Judging an object -/

/-- A path of the project cannot be looked up. -/
def Refused (t : FileTree) (project p : Path) : Prop := ∃ f, modified? t project p = .error f

/-- Judging an object comes to a path that cannot be looked up. -/
inductive Stumbles (g : Graph) (t : FileTree) (project : Path) (x : ObjectRecord) : Path → Prop where
  | object (refused : Refused t project x.path) : Stumbles g t project x x.path
  /-- All inputs before this one are there and not newer. -/
  | input {before after : List Path} {p : Path} (inputs : g.inputsOf x = before ++ p :: after)
      (object : ¬Refused t project x.path)
      (passed : ∀ q ∈ before, ¬Missing t project q ∧ ¬Older t project x.path q)
      (refused : Refused t project p) : Stumbles g t project x p

theorem Stumbles.refused (h : g.Stumbles t project x p) : Refused t project p := by
  cases h with
  | object refused => exact refused
  | input _ _ _ refused => exact refused

theorem Stumbles.mem (h : g.Stumbles t project x p) : p ∈ x.path :: g.inputsOf x := by
  cases h with
  | object _ => exact List.mem_cons_self
  | input inputs _ _ _ => simp [inputs]

/-- A name that is not too long is refused exactly if it leads through a file. -/
theorem refused_iff (hn : (project / p).IsNameable) : Refused t project p ↔ t.MeetsFile (project / p) := by
  constructor
  · rintro ⟨f, hf⟩
    obtain ⟨e, he, -⟩ := mapError_eq_error.mp hf
    exact ((modified?_eq_error hn).mp he).1
  · intro hmeets
    exact ⟨_, mapError_eq_error.mpr ⟨_, (modified?_eq_error hn).mpr ⟨hmeets, rfl⟩, rfl⟩⟩

theorem not_refused_iff : ¬Refused t project p ↔ ∃ m?, modified? t project p = .ok m? := by
  unfold Refused
  cases modified? t project p <;> simp

/-- Nothing is found at a path that cannot be looked up. -/
theorem Refused.missing (h : Refused t project p) : Missing t project p := by
  by_contra hthere
  obtain ⟨m, hm⟩ := Option.ne_none_iff_exists'.mp hthere
  exact not_refused_iff.mpr ⟨_, modified?_of_time? hm⟩ h

private theorem exists_split_cons {ps : List Path} {P Q : Path → Prop} :
    (∃ before p' after, p :: ps = before ++ p' :: after ∧ (∀ q ∈ before, P q) ∧ Q p') ↔
      Q p ∨ P p ∧ ∃ before p' after, ps = before ++ p' :: after ∧ (∀ q ∈ before, P q) ∧ Q p' := by
  constructor
  · rintro ⟨before, p', after, hps, hall, hp'⟩
    cases before with
    | nil =>
      obtain ⟨rfl, -⟩ := List.cons.inj hps
      exact .inl hp'
    | cons q before =>
      obtain ⟨rfl, rfl⟩ := List.cons.inj hps
      exact .inr ⟨hall p List.mem_cons_self, before, p', after, rfl, (List.forall_mem_cons.mp hall).2, hp'⟩
  · rintro (hp | ⟨hp, before, p', after, rfl, hall, hp'⟩)
    · exact ⟨[], p, ps, rfl, by simp, hp⟩
    · exact ⟨p :: before, p', after, rfl, List.forall_mem_cons.mpr ⟨hp, hall⟩, hp'⟩

/-- Inputs are judged unless one of them is refused, and all before it have passed. -/
theorem judgeInputs_eq_error {made? : Option Timestamp} {ps : List Path} (hsource : ¬Missing t project x.source)
    (hmade : modified? t project x.path = .ok made?) :
    judgeInputs t project x made? ps = .error f ↔ ∃ before p after, ps = before ++ p :: after ∧
      (∀ q ∈ before, ¬Missing t project q ∧ ¬Older t project x.path q) ∧ modified? t project p = .error f := by
  have htime := modified?_eq_ok hmade
  induction ps with
  | nil => simp [judgeInputs]
  | cons p ps ih =>
    rw [judgeInputs, exists_split_cons]
    cases hp : modified? t project p with
    | error f' =>
      have hmissing : Missing t project p := Refused.missing ⟨f', hp⟩
      simp [hmissing]
    | ok m? =>
      have hpath : t.time? (project / p) = m? := modified?_eq_ok hp
      cases m? with
      | none =>
        have hne : p ≠ x.source := fun heq ↦ hsource (heq ▸ hpath)
        simp [Missing, hpath, hne]
      | some changed =>
        have hnewer : made?.any (· < changed) = true ↔ Older t project x.path p := by
          unfold Older
          rw [htime, hpath]
          cases made? <;> simp
        by_cases holder : Older t project x.path p
        · simp [hnewer, holder]
        · have hpassed : ¬Missing t project p ∧ ¬Older t project x.path p := ⟨by simp [Missing, hpath], holder⟩
          rw [ok_bind]
          dsimp only
          rw [if_neg (hnewer.not.mpr holder), and_iff_right hpassed, or_iff_right (by simp)]
          exact ih

/-- An object whose source is there is judged unless its judging comes to a path that cannot be looked up. -/
theorem judge_eq_error (hsource : ¬Missing t project x.source) :
    g.judge t project x = .error f ↔ ∃ p, g.Stumbles t project x p ∧ modified? t project p = .error f := by
  cases hmade : modified? t project x.path with
  | error f' =>
    have hobject : Refused t project x.path := ⟨f', hmade⟩
    rw [judge, hmade, error_bind]
    constructor
    · intro h
      obtain rfl := Except.error.inj h
      exact ⟨x.path, .object hobject, hmade⟩
    · rintro ⟨p, hstumbles, hp⟩
      cases hstumbles with
      | object _ =>
        obtain rfl := Except.error.inj (hmade.symm.trans hp)
        rfl
      | input _ object _ _ => exact absurd hobject object
  | ok made? =>
    have hobject : ¬Refused t project x.path := not_refused_iff.mpr ⟨made?, hmade⟩
    rw [judge, hmade, ok_bind, judgeInputs_eq_error hsource hmade]
    constructor
    · rintro ⟨before, p, after, hinputs, hpassed, hp⟩
      exact ⟨p, .input hinputs hobject hpassed ⟨f, hp⟩, hp⟩
    · rintro ⟨p, hstumbles, hp⟩
      cases hstumbles with
      | object refused => exact absurd refused hobject
      | input inputs _ passed _ => exact ⟨_, p, _, inputs, passed, hp⟩

/-! ### Judging all objects -/

/-- Each of the objects that have been judged can be, and it is picked out if it is stale. -/
theorem Judges.mem_of_isStale {a : CompileAction} (h : Judges g t project qs as) (hq : q ∈ qs)
    (ha : g.compileActions.find? q = some a) :
    ∃ v, g.judge t project a.object = .ok v ∧ (v.isStale = true → a ∈ as) := by
  induction h with
  | nil => simp at hq
  | @stale q' _ a' _ v action verdict isStale _ ih =>
    rcases List.mem_cons.mp hq with rfl | hq
    · obtain rfl := Option.some.inj (action.symm.trans ha)
      exact ⟨v, verdict, fun _ ↦ List.mem_cons_self⟩
    · obtain ⟨v', hv', hmem⟩ := ih hq
      exact ⟨v', hv', fun hs ↦ List.mem_cons_of_mem _ (hmem hs)⟩
  | @fresh q' _ a' _ v action verdict isFresh _ ih =>
    rcases List.mem_cons.mp hq with rfl | hq
    · obtain rfl := Option.some.inj (action.symm.trans ha)
      exact ⟨v, verdict, fun hs ↦ absurd (isFresh.symm.trans hs) (by simp)⟩
    · exact ih hq

/-- Finding out which objects are stale fails exactly if judging one of them comes to a path that cannot be looked up,
and for that path. Names that are not too long cannot be looked up exactly if they lead through a file, so that headers
may have been deleted, alone or with their directories. An object with a header that is not there is compiled again. -/
theorem staleActions_fails_iff
    (hsources : ∀ q ∈ qs, ∃ a, g.compileActions.find? q = some a ∧ ¬Missing t o.project a.object.source) :
    ((∃ f, Runs (g.staleActions o qs) t [] (.error f) t) ↔
        ∃ q ∈ qs, ∃ a p, g.compileActions.find? q = some a ∧ g.Stumbles t o.project a.object p) ∧
      (∀ f, Runs (g.staleActions o qs) t [] (.error f) t → ∃ q ∈ qs, ∃ a p, g.compileActions.find? q = some a ∧
        g.Stumbles t o.project a.object p ∧ modified? t o.project p = .error f) ∧
      (∀ p, (o.project / p).IsNameable → (Refused t o.project p ↔ t.MeetsFile (o.project / p))) ∧
      ∀ as, Runs (g.staleActions o qs) t [] (.ok as) t → ∀ q ∈ qs, ∀ a, g.compileActions.find? q = some a →
        (∃ header ∈ (g.headers.find? a.object.path).getD [], Missing t o.project header) → a ∈ as := by
  have hactions : ∀ q ∈ qs, ∃ a, g.compileActions.find? q = some a := fun q hq ↦ (hsources q hq).imp fun _ ha ↦ ha.1
  have hjudge {q : Path} {a : CompileAction} {f : Failure} (hq : q ∈ qs) (ha : g.compileActions.find? q = some a) :
      g.judge t o.project a.object = .error f ↔
        ∃ p, g.Stumbles t o.project a.object p ∧ modified? t o.project p = .error f := by
    obtain ⟨a', ha', hsource⟩ := hsources q hq
    obtain rfl := Option.some.inj (ha.symm.trans ha')
    exact judge_eq_error hsource
  have hblame : ∀ f, Runs (g.staleActions o qs) t [] (.error f) t → ∃ q ∈ qs, ∃ a p,
      g.compileActions.find? q = some a ∧ g.Stumbles t o.project a.object p ∧ modified? t o.project p = .error f := by
    intro f hruns
    rcases judges_or_error hactions with ⟨as, hjudges⟩ | ⟨q, hq, a, f', ha, hf, hruns'⟩
    · cases ((runs_staleActions_ok.mpr ⟨hjudges, rfl, rfl⟩).unique hruns).2.1
    · obtain rfl := Except.error.inj (hruns'.unique hruns).2.1
      obtain ⟨p, hstumbles, hp⟩ := (hjudge hq ha).mp hf
      exact ⟨q, hq, a, p, ha, hstumbles, hp⟩
  refine ⟨⟨fun ⟨f, hruns⟩ ↦ ?_, fun ⟨q, hq, a, p, ha, hstumbles⟩ ↦ ?_⟩, hblame, fun p hn ↦ refused_iff hn, ?_⟩
  · obtain ⟨q, hq, a, p, ha, hstumbles, -⟩ := hblame f hruns
    exact ⟨q, hq, a, p, ha, hstumbles⟩
  · rcases judges_or_error hactions with ⟨as, hjudges⟩ | ⟨-, -, -, f, -, -, hruns⟩
    · obtain ⟨v, hv, -⟩ := hjudges.mem_of_isStale hq ha
      obtain ⟨f, hf⟩ := hstumbles.refused
      cases ((hjudge hq ha).mpr ⟨p, hstumbles, hf⟩).symm.trans hv
    · exact ⟨f, hruns⟩
  · rintro as hruns q hq a ha ⟨header, hheader, hmissing⟩
    obtain ⟨v, hv, hmem⟩ := (runs_staleActions_ok.mp hruns).1.mem_of_isStale hq ha
    exact hmem ((judge_isStale hv).mpr (.inr ⟨header, mem_inputsOf.mpr (.inr hheader), .inl hmissing⟩))

end Graph

namespace Rehearsal

/-- A program that has been compiled with a header in a directory, and what stands there now. -/
def headerTree (others : List (String × String × Timestamp)) : FileTree := .ofFiles (.ofSeconds 100) ([
  ("main.ini", "[module]\ntarget=app\nsources=a.c", .ofSeconds 50),
  ("a.c", "", .ofSeconds 50),
  ("build/a.o", "", .ofSeconds 50),
  ("build/a.P", "build/a.o: a.c inc/a.h\n", .ofSeconds 50)] ++ others)

/-- The graph of the project. -/
def headerGraph : Graph := { graph with headers := ⟨[(.ofString "build/a.o", [.ofString "inc/a.h"])]⟩ }

end Rehearsal

namespace Graph

open FileTree RunM Rehearsal

set_option maxRecDepth 10000 in
/-- The directory of the header is deleted, and the object is compiled again. -/
theorem staleActions_fails_iff_of_deleted :
    (({} : Project).resolve (headerTree [])).2 = .ok ⟨headerGraph, {}⟩ ∧
      ∃ a, headerGraph.compileActions.find? (.ofString "build/a.o") = some a ∧
        ¬Missing (headerTree []) .here a.object.source ∧ ∃ as,
          Runs (headerGraph.staleActions options [.ofString "build/a.o"]) (headerTree []) [] (.ok as) (headerTree []) ∧
            a ∈ as := by
  have hresolve : (({} : Project).resolve (headerTree [])).2.toOption = some ⟨headerGraph, {}⟩ := by decide +kernel
  have haction : (headerGraph.compileActions.find? (.ofString "build/a.o")).isSome := by decide +kernel
  obtain ⟨a, ha⟩ := Option.isSome_iff_exists.mp haction
  have hcomputed : ∀ a ∈ headerGraph.compileActions.find? (.ofString "build/a.o"),
      (headerTree []).time? (.here / a.object.source) ≠ none ∧
        (∀ p ∈ a.object.path :: headerGraph.inputsOf a.object, (modified? (headerTree []) .here p).toOption.isSome) ∧
        ∃ header ∈ (headerGraph.headers.find? a.object.path).getD [],
          (headerTree []).time? (.here / header) = none := by
    decide +kernel
  obtain ⟨hsource, hfound, hvanished⟩ := hcomputed a ha
  have hsources : ∀ q ∈ [Path.ofString "build/a.o"], ∃ a, headerGraph.compileActions.find? q = some a ∧
      ¬Missing (headerTree []) .here a.object.source :=
    fun q hq ↦ ⟨a, List.mem_singleton.mp hq ▸ ha, hsource⟩
  obtain ⟨hfails, -, -, hstale⟩ := staleActions_fails_iff (o := options) hsources
  refine ⟨toOption_eq_some.mp hresolve, a, ha, hsource, ?_⟩
  rcases judges_or_error (o := options) (t := headerTree []) fun q hq ↦ (hsources q hq).imp fun _ h ↦ h.1 with
    ⟨as, hjudges⟩ | ⟨-, -, -, f, -, -, hruns⟩
  · have hruns := runs_staleActions_ok.mpr ⟨hjudges, rfl, rfl⟩
    exact ⟨as, hruns, hstale as hruns _ (List.mem_singleton_self _) a ha hvanished⟩
  · obtain ⟨q, hq, a', p, ha', hstumbles⟩ := hfails.mp ⟨f, hruns⟩
    obtain rfl := Option.some.inj (ha.symm.trans (List.mem_singleton.mp hq ▸ ha'))
    obtain ⟨f, hf⟩ := hstumbles.refused
    have hfound := hfound p hstumbles.mem
    rw [show modified? (headerTree []) .here p = .error f from hf] at hfound
    cases hfound

set_option maxRecDepth 10000 in
/-- A file has come to stand in place of the directory of a header, and that ends the build. -/
theorem vanished_header_ends_build :
    (({} : Project).resolve (headerTree [("inc", "", .ofSeconds 50)])).2 = .ok ⟨headerGraph, {}⟩ ∧
      headerGraph.objects.keys = [.ofString "build/a.o"] ∧
      (∀ x ∈ headerGraph.objects.values,
        (headerTree [("inc", "", .ofSeconds 50)]).isFile (.here / x.source) = .ok true ∧
          headerGraph.headers.find? x.path = some [.ofString "inc/a.h"] ∧
          headerGraph.judge (headerTree [("inc", "", .ofSeconds 50)]) .here x =
            .error (.file ⟨.notDirectory, .ofString "inc/a.h"⟩)) ∧
      ∃ run', (headerGraph.build options none).run.run (start (headerTree [("inc", "", .ofSeconds 50)])) =
          (.error (.file ⟨.notDirectory, .ofString "inc/a.h"⟩), run') := by
  have hresolve : (({} : Project).resolve (headerTree [("inc", "", .ofSeconds 50)])).2.toOption =
      some ⟨headerGraph, {}⟩ := by
    decide +kernel
  exact ⟨toOption_eq_some.mp hresolve, by decide +kernel, by decide +kernel, _, Prod.ext (by decide +kernel) rfl⟩

end Graph

end ModuleBuild
