import ModuleBuild.Build.Staleness
import ModuleBuild.Proofs.FileTree.Shape
import Mathlib.Tactic.Push

/-!
# What makes objects and targets stale

Verdicts in terms of what is found at paths: an object is stale if it is missing, or an input is missing
or newer; a target is stale if it is missing, or an input is newer or was made again.
-/

namespace ModuleBuild.Graph

variable {t t' : FileTree} {project : Path} {g : Graph}

/-- What stands at the first path was changed before what stands at the second. -/
def Older (t : FileTree) (project p q : Path) : Prop :=
  ∃ m m', t.time? (project / p) = some m ∧ t.time? (project / q) = some m' ∧ m < m'

/-- Nothing is found at a path of the project. -/
def Missing (t : FileTree) (project p : Path) : Prop := t.time? (project / p) = none

theorem modified?_eq_ok {p : Path} {m? : Option Timestamp} (h : modified? t project p = .ok m?) :
    t.time? (project / p) = m? :=
  (FileTree.eq_time?_of_modified? (mapError_eq_ok.mp h)).symm

theorem modified?_of_time? {p : Path} {m : Timestamp} (h : t.time? (project / p) = some m) :
    modified? t project p = .ok (some m) := by
  obtain ⟨e, he, rfl⟩ := FileTree.time?_eq_some.mp h
  exact mapError_eq_ok.mpr (FileTree.modified?_eq_ok.mpr (.inl ⟨e, he, rfl⟩))

/-- A verdict on inputs, in terms of what is found. -/
theorem judgeInputs_isStale {o : ObjectRecord} {made? : Option Timestamp} {ps : List Path} {v : Verdict}
    (h : judgeInputs t project o made? ps = .ok v) :
    v.isStale = true ↔ made? = none ∨ ∃ p ∈ ps, Missing t project p ∨
      ∃ m m', made? = some m ∧ t.time? (project / p) = some m' ∧ m < m' := by
  induction ps with
  | nil =>
    obtain rfl := Except.ok.inj h
    cases made? <;> simp [Verdict.isStale]
  | cons p ps ih =>
    rw [judgeInputs] at h
    obtain ⟨m?, hm, h⟩ := bind_eq_ok.mp h
    have htime := modified?_eq_ok hm
    cases m? with
    | none =>
      dsimp only at h
      split at h
      · simp at h
      · obtain rfl := Except.ok.inj h
        simp only [Verdict.isStale, true_iff]
        exact .inr ⟨p, List.mem_cons_self, .inl htime⟩
    | some changed =>
      dsimp only at h
      split at h
      · next hnewer =>
        obtain rfl := Except.ok.inj h
        obtain ⟨m, hmade, hlt⟩ : ∃ m, made? = some m ∧ m < changed := by
          cases made? with
          | none => simp at hnewer
          | some m => exact ⟨m, rfl, by simpa using hnewer⟩
        simp only [Verdict.isStale, true_iff]
        exact .inr ⟨p, List.mem_cons_self, .inr ⟨m, changed, hmade, htime, hlt⟩⟩
      · next hnewer =>
        rw [ih h]
        refine or_congr_right ⟨?_, ?_⟩
        · rintro ⟨q, hq, hstale⟩
          exact ⟨q, List.mem_cons_of_mem _ hq, hstale⟩
        · rintro ⟨q, hq, hstale⟩
          rcases List.mem_cons.mp hq with rfl | hq
          · rcases hstale with hmissing | ⟨m, m', hmade, htime', hlt⟩
            · exact absurd (htime.symm.trans hmissing) (by simp)
            · obtain rfl := Option.some.inj (htime.symm.trans htime')
              exact absurd (by simpa [hmade] using hlt) hnewer
          · exact ⟨q, hq, hstale⟩

/-- An object is made from its source and its known headers. -/
theorem mem_inputsOf {q : Path} {o : ObjectRecord} :
    q ∈ g.inputsOf o ↔ q = o.source ∨ q ∈ (g.headers.find? o.path).getD [] := by
  simp [inputsOf]

/-- The source is the first input. -/
theorem exists_inputsOf (g : Graph) (o : ObjectRecord) : ∃ qs, g.inputsOf o = o.source :: qs :=
  ⟨_, appendNew_eq ..⟩

/-- An object can be judged only if its source is there. -/
theorem exists_source_of_judge {o : ObjectRecord} {v : Verdict} (h : g.judge t project o = .ok v) :
    ∃ m, t.time? (project / o.source) = some m := by
  obtain ⟨made?, -, h⟩ := bind_eq_ok.mp h
  obtain ⟨qs, hqs⟩ := g.exists_inputsOf o
  rw [hqs, judgeInputs] at h
  obtain ⟨m?, hm, h⟩ := bind_eq_ok.mp h
  cases m? with
  | none => simp at h
  | some m => exact ⟨m, modified?_eq_ok hm⟩

/-- An object of the graph is stale if it is missing, or an input is missing or newer. -/
def IsStale (g : Graph) (t : FileTree) (project : Path) (o : ObjectRecord) : Prop :=
  Missing t project o.path ∨
    ∃ p ∈ g.inputsOf o, Missing t project p ∨ Older t project o.path p

theorem judge_isStale {o : ObjectRecord} {v : Verdict} (h : g.judge t project o = .ok v) :
    v.isStale = true ↔ g.IsStale t project o := by
  unfold judge at h
  obtain ⟨made?, hmade, h⟩ := bind_eq_ok.mp h
  rw [judgeInputs_isStale h]
  have htime := modified?_eq_ok hmade
  unfold IsStale Older
  rw [Missing, htime]

/-- Verdicts hang on what is asked about the object and its inputs. -/
theorem judge_congr {g' : Graph} {o : ObjectRecord} (hinputs : g'.inputsOf o = g.inputsOf o)
    (hmade : modified? t' project o.path = modified? t project o.path)
    (h : ∀ p ∈ g.inputsOf o, modified? t' project p = modified? t project p) :
    g'.judge t' project o = g.judge t project o := by
  have hlist : ∀ (made? : Option Timestamp) (ps : List Path),
      (∀ p ∈ ps, modified? t' project p = modified? t project p) →
        judgeInputs t' project o made? ps = judgeInputs t project o made? ps := by
    intro made? ps
    induction ps with
    | nil => intro _; rfl
    | cons p ps ih =>
      intro hps
      rw [judgeInputs, judgeInputs, hps p List.mem_cons_self,
        ih fun q hq ↦ hps q (List.mem_cons_of_mem _ hq)]
  unfold judge
  rw [hmade, hinputs]
  cases modified? t project o.path with
  | error f => rfl
  | ok made? => exact hlist made? _ h

/-- A verdict stays if whatever was found out about the object and its inputs is found out again. -/
theorem judge_of_found {g' : Graph} {o : ObjectRecord} {v : Verdict} (hv : g.judge t project o = .ok v)
    (hinputs : g'.inputsOf o = g.inputsOf o)
    (h : ∀ p ∈ o.path :: g.inputsOf o, ∀ m?, modified? t project p = .ok m? →
      modified? t' project p = .ok m?) : g'.judge t' project o = .ok v := by
  have hlist : ∀ (made? : Option Timestamp) (ps : List Path), ps ⊆ g.inputsOf o →
      judgeInputs t project o made? ps = .ok v → judgeInputs t' project o made? ps = .ok v := by
    intro made? ps
    induction ps with
    | nil => exact fun _ hv ↦ hv
    | cons p ps ih =>
      intro hps hv
      rw [judgeInputs] at hv ⊢
      obtain ⟨m?, hm, hv⟩ := bind_eq_ok.mp hv
      rw [h p (List.mem_cons_of_mem _ (hps List.mem_cons_self)) m? hm, ok_bind]
      cases m? with
      | none => exact hv
      | some changed =>
        dsimp only at hv ⊢
        split
        · next hnewer => rwa [if_pos hnewer] at hv
        · next hnewer =>
          rw [if_neg hnewer] at hv
          exact ih (List.subset_of_cons_subset hps) hv
  obtain ⟨made?, hmade, hv⟩ := bind_eq_ok.mp hv
  rw [judge, h o.path List.mem_cons_self made? hmade, ok_bind, hinputs]
  exact hlist made? _ (List.Subset.refl _) hv

/-- Where it can be told what is there, an object is judged, unless its source is missing; that is an error. -/
theorem judge_of_modified? {o : ObjectRecord}
    (h : ∀ p ∈ o.path :: g.inputsOf o, ∃ m?, modified? t project p = .ok m?) :
    (¬Missing t project o.source ∧ ∃ v, g.judge t project o = .ok v) ∨
      Missing t project o.source ∧ g.judge t project o = .error (.build (.noRule o.source o.path)) := by
  have hlist (made? : Option Timestamp) (ps : List Path) (hps : ∀ p ∈ ps, ∃ m?, modified? t project p = .ok m?)
      (hsource : ¬Missing t project o.source) : ∃ v, judgeInputs t project o made? ps = .ok v := by
    induction ps with
    | nil => exact ⟨_, rfl⟩
    | cons p ps ih =>
      obtain ⟨m?, hm⟩ := hps p List.mem_cons_self
      rw [judgeInputs, hm, ok_bind]
      cases m? with
      | none =>
        have hne : p ≠ o.source := fun heq ↦ hsource (heq ▸ modified?_eq_ok hm)
        exact ⟨_, if_neg hne⟩
      | some changed =>
        dsimp only
        split
        · exact ⟨_, rfl⟩
        · exact ih fun q hq ↦ hps q (List.mem_cons_of_mem _ hq)
  obtain ⟨made?, hmade⟩ := h o.path List.mem_cons_self
  obtain ⟨qs, hinputs⟩ := g.exists_inputsOf o
  rw [judge, hmade, ok_bind]
  by_cases hsource : Missing t project o.source
  · -- the source is the first input that is asked for
    obtain ⟨m?, hm⟩ := h o.source (by simp [hinputs])
    obtain rfl : m? = none := (modified?_eq_ok hm).symm.trans hsource
    refine .inr ⟨hsource, ?_⟩
    rw [hinputs, judgeInputs, hm, ok_bind]
    exact if_pos rfl
  · exact .inl ⟨hsource, hlist made? _ (fun p hp ↦ h p (List.mem_cons_of_mem _ hp)) hsource⟩

/-- An object is fresh if it is there and its inputs are there and not newer. -/
theorem judge_eq_fresh {o : ObjectRecord} {m : Timestamp} (hm : t.time? (project / o.path) = some m)
    (h : ∀ p ∈ g.inputsOf o, ∃ m', t.time? (project / p) = some m' ∧ ¬m < m') :
    g.judge t project o = .ok .fresh := by
  have hlist : ∀ ps : List Path, (∀ p ∈ ps, ∃ m', t.time? (project / p) = some m' ∧ ¬m < m') →
      judgeInputs t project o (some m) ps = .ok .fresh := by
    intro ps
    induction ps with
    | nil => intro _; rfl
    | cons p ps ih =>
      intro hps
      obtain ⟨m', htime, hnot⟩ := hps p List.mem_cons_self
      rw [judgeInputs, modified?_of_time? htime, ok_bind]
      simpa [hnot] using ih fun q hq ↦ hps q (List.mem_cons_of_mem _ hq)
  rw [judge, modified?_of_time? hm, ok_bind]
  exact hlist _ h

/-- A fresh object is there, and its inputs are there and not newer. -/
theorem exists_of_not_isStale {o : ObjectRecord} (h : ¬g.IsStale t project o) :
    ∃ m, t.time? (project / o.path) = some m ∧
      ∀ p ∈ g.inputsOf o, ∃ m', t.time? (project / p) = some m' ∧ ¬m < m' := by
  unfold IsStale at h
  push Not at h
  obtain ⟨hmade, hinputs⟩ := h
  obtain ⟨m, hm⟩ := Option.ne_none_iff_exists'.mp hmade
  refine ⟨m, hm, fun p hp ↦ ?_⟩
  obtain ⟨hthere, hnewer⟩ := hinputs p hp
  obtain ⟨m', hm'⟩ := Option.ne_none_iff_exists'.mp hthere
  exact ⟨m', hm', fun hlt ↦ hnewer ⟨m, m', hm, hm', hlt⟩⟩

/-! ### Targets -/

theorem staleInputs_eq_ok {target : Path} {made? : Option Timestamp} {remade : List Path}
    {stale b : Bool} {ps : List Path}
    (h : staleInputs t project target made? remade stale ps = .ok b) :
    (∀ p ∈ ps, ¬Missing t project p) ∧ (b = true ↔ stale = true ∨ ∃ p ∈ ps, p ∈ remade ∨
      ∃ m m', made? = some m ∧ t.time? (project / p) = some m' ∧ m < m') := by
  induction ps generalizing stale with
  | nil =>
    obtain rfl := Except.ok.inj h
    simp
  | cons p ps ih =>
    rw [staleInputs] at h
    obtain ⟨m?, hm, h⟩ := bind_eq_ok.mp h
    have htime := modified?_eq_ok hm
    cases m? with
    | none => simp at h
    | some changed =>
      obtain ⟨hthere, hiff⟩ := ih h
      refine ⟨?_, ?_⟩
      · intro q hq
        rcases List.mem_cons.mp hq with rfl | hq
        · simp [Missing, htime]
        · exact hthere q hq
      · rw [hiff]
        have hnewer : made?.any (· < changed) = true ↔
            ∃ m m', made? = some m ∧ t.time? (project / p) = some m' ∧ m < m' := by
          cases made? <;> simp [htime]
        simp only [Bool.or_eq_true, List.contains_iff_mem, hnewer, List.mem_cons, or_and_right,
          exists_or, exists_eq_left]
        exact or_assoc

/-- A target is stale if it is missing, or an input is newer or was made again; and all its inputs are
there. -/
theorem targetIsStale_eq_ok {a : TargetAction} {remade : List Path} {b : Bool}
    (h : targetIsStale t project a remade = .ok b) :
    (∀ p ∈ a.inputs, ¬Missing t project p) ∧ (b = true ↔ Missing t project a.target ∨
      ∃ p ∈ a.inputs, p ∈ remade ∨ Older t project a.target p) := by
  unfold targetIsStale at h
  obtain ⟨made?, hmade, h⟩ := bind_eq_ok.mp h
  obtain ⟨hthere, hiff⟩ := staleInputs_eq_ok h
  refine ⟨hthere, hiff.trans ?_⟩
  have htime := modified?_eq_ok hmade
  unfold Missing Older
  rw [htime, Option.isNone_iff_eq_none]

/-- Whether a target is stale can be told if it can be looked up and its inputs are there. -/
theorem targetIsStale_isOk {a : TargetAction} {made? : Option Timestamp}
    (hmade : modified? t project a.target = .ok made?) (h : ∀ p ∈ a.inputs, ¬Missing t project p)
    (remade : List Path) : ∃ b, targetIsStale t project a remade = .ok b := by
  have hlist : ∀ (stale : Bool) (ps : List Path), (∀ p ∈ ps, ¬Missing t project p) →
      ∃ b, staleInputs t project a.target made? remade stale ps = .ok b := by
    intro stale ps
    induction ps generalizing stale with
    | nil => exact fun _ ↦ ⟨stale, rfl⟩
    | cons p ps ih =>
      intro hps
      obtain ⟨m, hm⟩ := Option.ne_none_iff_exists'.mp (hps p List.mem_cons_self)
      rw [staleInputs, modified?_of_time? hm, ok_bind]
      exact ih _ fun q hq ↦ hps q (List.mem_cons_of_mem _ hq)
  rw [targetIsStale, hmade, ok_bind]
  exact hlist _ _ h

/-- Where it can be told what is there, it can be told whether a target is stale, unless an input is missing; that is an
error. -/
theorem targetIsStale_of_modified? {a : TargetAction} (hmade : ∃ made?, modified? t project a.target = .ok made?)
    (h : ∀ p ∈ a.inputs, ∃ m?, modified? t project p = .ok m?) (remade : List Path) :
    ((∀ p ∈ a.inputs, ¬Missing t project p) ∧ ∃ b, targetIsStale t project a remade = .ok b) ∨
      ∃ p ∈ a.inputs, Missing t project p ∧
        targetIsStale t project a remade = .error (.build (.noRule p a.target)) := by
  obtain ⟨made?, hmade⟩ := hmade
  by_cases hthere : ∀ p ∈ a.inputs, ¬Missing t project p
  · exact .inl ⟨hthere, targetIsStale_isOk hmade hthere remade⟩
  · right
    push Not at hthere
    have hlist (stale : Bool) (ps : List Path) (hps : ∀ p ∈ ps, ∃ m?, modified? t project p = .ok m?)
        (hmissing : ∃ p ∈ ps, Missing t project p) : ∃ p ∈ ps, Missing t project p ∧
          staleInputs t project a.target made? remade stale ps = .error (.build (.noRule p a.target)) := by
      induction ps generalizing stale with
      | nil => simp at hmissing
      | cons p ps ih =>
        obtain ⟨m?, hm⟩ := hps p List.mem_cons_self
        rw [staleInputs, hm, ok_bind]
        cases m? with
        | none => exact ⟨p, List.mem_cons_self, modified?_eq_ok hm, rfl⟩
        | some changed =>
          have hrest : ∃ q ∈ ps, Missing t project q := by
            obtain ⟨q, hq, hmissing⟩ := hmissing
            rcases List.mem_cons.mp hq with rfl | hq
            · cases (modified?_eq_ok hm).symm.trans hmissing
            · exact ⟨q, hq, hmissing⟩
          obtain ⟨q, hq, hmissing, herror⟩ := ih _ (fun q hq ↦ hps q (List.mem_cons_of_mem _ hq)) hrest
          exact ⟨q, List.mem_cons_of_mem _ hq, hmissing, herror⟩
    rw [targetIsStale, hmade, ok_bind]
    exact hlist _ _ h hthere

/-- A target that can be looked up and whose inputs are there is told stale where there is as much reason
for it as where it was told. -/
theorem targetIsStale_of_iff {a : TargetAction} {remade remade' : List Path} {b : Bool}
    {made? : Option Timestamp} (hb : targetIsStale t project a remade = .ok b)
    (hmade : modified? t' project a.target = .ok made?) (hthere : ∀ p ∈ a.inputs, ¬Missing t' project p)
    (hiff : (Missing t' project a.target ∨ ∃ p ∈ a.inputs, p ∈ remade' ∨ Older t' project a.target p) ↔
      (Missing t project a.target ∨ ∃ p ∈ a.inputs, p ∈ remade ∨ Older t project a.target p)) :
    targetIsStale t' project a remade' = .ok b := by
  obtain ⟨b', hb'⟩ := targetIsStale_isOk hmade hthere remade'
  have hsame : b' = true ↔ b = true :=
    (targetIsStale_eq_ok hb').2.trans (hiff.trans (targetIsStale_eq_ok hb).2.symm)
  rwa [Bool.eq_iff_iff.mpr hsame] at hb'

/-- A target is fresh if it is there, and its inputs are there, not newer, and not made again. -/
theorem targetIsStale_eq_false {a : TargetAction} {remade : List Path} {m : Timestamp}
    (hm : t.time? (project / a.target) = some m)
    (h : ∀ p ∈ a.inputs, p ∉ remade ∧ ∃ m', t.time? (project / p) = some m' ∧ ¬m < m') :
    targetIsStale t project a remade = .ok false := by
  have hlist : ∀ ps : List Path,
      (∀ p ∈ ps, p ∉ remade ∧ ∃ m', t.time? (project / p) = some m' ∧ ¬m < m') →
        staleInputs t project a.target (some m) remade false ps = .ok false := by
    intro ps
    induction ps with
    | nil => intro _; rfl
    | cons p ps ih =>
      intro hps
      obtain ⟨hnew, m', htime, hnot⟩ := hps p List.mem_cons_self
      rw [staleInputs, modified?_of_time? htime, ok_bind]
      simpa [hnew, hnot] using ih fun q hq ↦ hps q (List.mem_cons_of_mem _ hq)
  rw [targetIsStale, modified?_of_time? hm, ok_bind]
  exact hlist _ h

end ModuleBuild.Graph
