import ModuleBuild.Module.Scope
import ModuleBuild.Proofs.Answers
import Mathlib.Data.List.Induction

/-!
# Entering and leaving

A walk moves between scopes by entering modules and leaving them. Which modules are still open is told by counting
alone: since a module was entered, no more modules have been left than entered (`StaysInside`). Moves that never lead out
are rounds, each of them a module that is entered and left, between modules that stay open (`Course`);
rounds bring back the scope (`run_of_isBalanced`), and of the modules that stay open the last one that declares a target
sets it (`moves_nested`).
-/

namespace ModuleBuild.Scope

/-- What a walk does to its scope. -/
inductive Move where
  | enter (module directory : Path) (target : Option Path)
  | leave
  deriving DecidableEq, Repr

namespace Move

/-- The scope after a move. -/
def apply (s : Scope) : Move → Except StackError Scope
  | enter module directory target => .ok (s.enter module directory target)
  | leave => s.leave

/-- The move enters a module. -/
def isEnter : Move → Bool
  | enter .. => true
  | leave => false

end Move

/-- The scope after moves that are made one after another. -/
def run (s : Scope) (ms : List Move) : Except StackError Scope := ms.foldlM Move.apply s

/-- How many modules are entered. -/
def entries (ms : List Move) : Nat := ms.countP (·.isEnter)

/-- How many modules are left. -/
def exits (ms : List Move) : Nat := ms.countP (!·.isEnter)

/-- No module is left that had been entered before. -/
def StaysInside (ms : List Move) : Prop := ∀ front, front <+: ms → exits front ≤ entries front

/-- No module is left that had been entered before, and every module that is entered is left. -/
structure IsBalanced (ms : List Move) : Prop where
  staysInside : StaysInside ms
  exits_eq : exits ms = entries ms

/-- A module that declares the target was entered and has not been left since, in the moves `after`. -/
def Declares (ms : List Move) (target : Path) (after : List Move) : Prop :=
  ∃ before module directory, ms = before ++ .enter module directory (some target) :: after ∧ StaysInside after

/-- Of the modules that declare a target and have not been left, the one that was entered last declares this one. -/
def DeclaresLast (ms : List Move) (target : Path) : Prop :=
  ∃ after, Declares ms target after ∧ ∀ target' after', Declares ms target' after' → after.length ≤ after'.length

variable {s s' : Scope} {ms ms' inner rest after : List Move} {module directory : Path} {target : Option Path}

/-! ### Counting -/

@[simp] theorem entries_nil : entries [] = 0 := rfl

@[simp] theorem exits_nil : exits [] = 0 := rfl

@[simp] theorem entries_append (ms ms' : List Move) : entries (ms ++ ms') = entries ms + entries ms' :=
  List.countP_append

@[simp] theorem exits_append (ms ms' : List Move) : exits (ms ++ ms') = exits ms + exits ms' := List.countP_append

@[simp] theorem entries_enter (ms : List Move) : entries (.enter module directory target :: ms) = entries ms + 1 :=
  List.countP_cons_of_pos rfl

@[simp] theorem exits_enter (ms : List Move) : exits (.enter module directory target :: ms) = exits ms :=
  List.countP_cons_of_neg (by simp [Move.isEnter])

@[simp] theorem entries_leave (ms : List Move) : entries (.leave :: ms) = entries ms :=
  List.countP_cons_of_neg (by simp [Move.isEnter])

@[simp] theorem exits_leave (ms : List Move) : exits (.leave :: ms) = exits ms + 1 := List.countP_cons_of_pos rfl

theorem staysInside_nil : StaysInside [] := by
  intro front hfront
  rw [List.prefix_nil.mp hfront]
  exact Nat.le_refl _

theorem StaysInside.of_append (h : StaysInside (ms ++ ms')) : StaysInside ms :=
  fun front hfront ↦ h front (hfront.trans (List.prefix_append ms ms'))

/-- What follows balanced moves leads out only if all of it does. -/
theorem IsBalanced.of_append (h : IsBalanced ms) (hrest : StaysInside (ms ++ ms')) : StaysInside ms' := by
  intro front hfront
  have hle := hrest (ms ++ front) ((List.prefix_append_right_inj ms).mpr hfront)
  simp only [exits_append, entries_append, h.exits_eq] at hle
  omega

/-- A module is entered and left, with balanced moves between. -/
theorem IsBalanced.round (h : IsBalanced inner) (module directory : Path) (target : Option Path) :
    IsBalanced (.enter module directory target :: (inner ++ [.leave])) where
  staysInside := by
    intro front hfront
    obtain rfl | ⟨tail, rfl, htail⟩ := List.prefix_cons_iff.mp hfront
    · exact Nat.le_refl _
    · obtain rfl | hinner := List.prefix_concat_iff.mp htail
      · simp [h.exits_eq]
      · have hle := h.staysInside tail hinner
        simp only [exits_enter, entries_enter]
        omega
  exits_eq := by simp [h.exits_eq]

/-- Moves never lead out, or there is a first one that does; those before it are balanced. -/
theorem staysInside_or_exists (ms : List Move) :
    StaysInside ms ∨ ∃ inner rest, ms = inner ++ .leave :: rest ∧ IsBalanced inner := by
  induction ms using List.reverseRecOn with
  | nil => exact .inl staysInside_nil
  | append_singleton ms m ih =>
    obtain hms | ⟨inner, rest, rfl, hinner⟩ := ih
    · by_cases hle : exits (ms ++ [m]) ≤ entries (ms ++ [m])
      · refine .inl fun front hfront ↦ ?_
        obtain rfl | hfront := List.prefix_concat_iff.mp hfront
        · exact hle
        · exact hms front hfront
      · have hall := hms ms List.prefix_rfl
        cases m with
        | enter module directory target =>
          simp only [exits_append, exits_enter, exits_nil, entries_append, entries_enter, entries_nil] at hle
          omega
        | leave =>
          simp only [exits_append, exits_leave, exits_nil, entries_append, entries_leave, entries_nil] at hle
          exact .inr ⟨ms, [], rfl, hms, by omega⟩
    · exact .inr ⟨inner, rest ++ [m], by simp, hinner⟩

/-- Modules that stay open, with rounds between them: the first module that is entered is not left, or it is left after
balanced moves. -/
inductive Course : List Move → Prop where
  | nil : Course []
  | within (module directory : Path) (target : Option Path) {rest : List Move} (hrest : StaysInside rest)
      (course : Course rest) : Course (.enter module directory target :: rest)
  | around (module directory : Path) (target : Option Path) {inner rest : List Move} (hinner : IsBalanced inner)
      (inside : Course inner) (course : Course rest) :
      Course (.enter module directory target :: (inner ++ .leave :: rest))

/-- Moves that never lead out go such a course. -/
theorem StaysInside.course (h : StaysInside ms) : Course ms := by
  induction hlength : ms.length using Nat.strongRecOn generalizing ms with
  | ind n ih =>
    subst hlength
    cases ms with
    | nil => exact .nil
    | cons m rest =>
      cases m with
      | leave =>
        have hle := h [.leave] (by simp)
        simp at hle
      | enter module directory target =>
        obtain hrest | ⟨inner, rest, rfl, hinner⟩ := staysInside_or_exists rest
        · exact .within _ _ _ hrest (ih rest.length (by simp) hrest rfl)
        · have hrest : StaysInside rest := (hinner.round module directory target).of_append (by simpa using h)
          have hlt : inner.length < (Move.enter module directory target :: (inner ++ .leave :: rest)).length := by
            simp only [List.length_cons, List.length_append]
            omega
          have hlt' : rest.length < (Move.enter module directory target :: (inner ++ .leave :: rest)).length := by
            simp only [List.length_cons, List.length_append]
            omega
          exact .around _ _ _ hinner (ih _ hlt hinner.staysInside rfl) (ih _ hlt' hrest rfl)

/-! ### Running -/

@[simp] theorem run_enter (s : Scope) (ms : List Move) :
    run s (.enter module directory target :: ms) = run (s.enter module directory target) ms := rfl

theorem run_append (s : Scope) (ms ms' : List Move) : run s (ms ++ ms') = run s ms >>= (run · ms') := List.foldlM_append

/-- A round brings back the scope if what is between does. -/
theorem run_round (h : ∀ s, run s inner = .ok s) (s : Scope) (rest : List Move) :
    run s (.enter module directory target :: (inner ++ .leave :: rest)) = run s rest := by
  rw [run_enter, run_append, h, ok_bind]
  rfl

/-- On a course on which all that is entered is left, the scope comes back. -/
theorem Course.run_eq (h : Course ms) (heq : exits ms = entries ms) (s : Scope) : run s ms = .ok s := by
  induction h generalizing s with
  | nil => rfl
  | @within module directory target rest hrest _ ih =>
    have hle := hrest rest List.prefix_rfl
    simp only [exits_enter, entries_enter] at heq
    omega
  | around module directory target hinner _ _ ihinner ihrest =>
    rw [run_round (ihinner hinner.exits_eq)]
    refine ihrest ?_ s
    simp only [exits_enter, exits_append, exits_leave, entries_enter, entries_append, entries_leave,
      hinner.exits_eq] at heq
    omega

/-- Balanced moves bring back the scope. -/
theorem run_of_isBalanced (h : IsBalanced ms) (s : Scope) : run s ms = .ok s :=
  h.staysInside.course.run_eq h.exits_eq s

/-! ### Targets -/

variable {t t' : Path}

theorem Declares.length_lt (h : Declares ms t after) : after.length < ms.length := by
  obtain ⟨before, module, directory, rfl, -⟩ := h
  simp only [List.length_append, List.length_cons]
  omega

/-- A module that stays open declares its own target, beside what is declared within it. -/
theorem declares_enter_iff (h : StaysInside rest) : Declares (.enter module directory target :: rest) t after ↔
    target = some t ∧ after = rest ∨ Declares rest t after := by
  constructor
  · rintro ⟨before, module', directory', heq, hafter⟩
    cases before with
    | nil =>
      obtain ⟨hmove, rfl⟩ := List.cons.inj heq
      cases hmove
      exact .inl ⟨rfl, rfl⟩
    | cons m before =>
      obtain ⟨-, rfl⟩ := List.cons.inj heq
      exact .inr ⟨before, module', directory', rfl, hafter⟩
  · rintro (⟨rfl, rfl⟩ | ⟨before, module', directory', rfl, hafter⟩)
    · exact ⟨[], module, directory, rfl, h⟩
    · exact ⟨_ :: before, module', directory', rfl, hafter⟩

/-- Nothing that was declared in balanced moves lasts. -/
theorem IsBalanced.declares_append_iff (h : IsBalanced ms) : Declares (ms ++ rest) t after ↔ Declares rest t after := by
  constructor
  · rintro ⟨before, module, directory, heq, hafter⟩
    obtain ⟨front, rfl, hrest⟩ | ⟨back, hms, hback⟩ := List.append_eq_append_iff.mp heq
    · exact ⟨front, module, directory, hrest, hafter⟩
    · cases back with
      | nil => exact ⟨[], module, directory, hback.symm, hafter⟩
      | cons m back =>
        -- the declaring module is among the balanced moves, so it has been left
        obtain ⟨rfl, rfl⟩ := List.cons.inj hback
        have hbefore := h.staysInside before (hms ▸ List.prefix_append _ _)
        have hback := hafter.of_append back List.prefix_rfl
        have heq := h.exits_eq
        simp only [hms, exits_append, exits_enter, entries_append, entries_enter] at heq
        omega
  · rintro ⟨before, module, directory, rfl, hafter⟩
    exact ⟨ms ++ before, module, directory, (List.append_assoc ..).symm, hafter⟩

/-- No two targets are declared last. -/
theorem DeclaresLast.unique (h : DeclaresLast ms t) (h' : DeclaresLast ms t') : t = t' := by
  obtain ⟨after, hafter, hlast⟩ := h
  obtain ⟨after', hafter', hlast'⟩ := h'
  have hlength := Nat.le_antisymm (hlast t' after' hafter') (hlast' t after hafter)
  obtain ⟨before, module, directory, rfl, -⟩ := hafter
  obtain ⟨before', module', directory', heq, -⟩ := hafter'
  have hmoves := (List.append_inj' heq (by simp [hlength])).2
  cases (List.cons.inj hmoves).1
  rfl

/-- A course can be gone. The last target that is declared is in effect at its end, or else the one that was in effect
before. -/
theorem Course.exists_run (h : Course ms) (s : Scope) : ∃ s', run s ms = .ok s' ∧
    ((∃ t, s'.target = some t ∧ DeclaresLast ms t) ∨ s'.target = s.target ∧ ∀ t after, ¬Declares ms t after) := by
  induction h generalizing s with
  | nil => exact ⟨s, rfl, .inr ⟨rfl, fun t after hafter ↦ Nat.not_lt_zero _ hafter.length_lt⟩⟩
  | @within module directory target rest hrest _ ih =>
    obtain ⟨s', hrun, ⟨t, ht, after, hafter, hlast⟩ | ⟨ht, hnone⟩⟩ := ih (s.enter module directory target)
    · refine ⟨s', hrun, .inl ⟨t, ht, after, (declares_enter_iff hrest).mpr (.inr hafter), fun t' after' hafter' ↦ ?_⟩⟩
      obtain ⟨-, rfl⟩ | hafter' := (declares_enter_iff hrest).mp hafter'
      · exact Nat.le_of_lt hafter.length_lt
      · exact hlast t' after' hafter'
    · rw [target_enter] at ht
      cases target with
      | none =>
        refine ⟨s', hrun, .inr ⟨ht, fun t after hafter ↦ ?_⟩⟩
        obtain ⟨htarget, -⟩ | hafter := (declares_enter_iff hrest).mp hafter
        · cases htarget
        · exact hnone t after hafter
      | some t =>
        refine ⟨s', hrun, .inl ⟨t, ht, rest, (declares_enter_iff hrest).mpr (.inl ⟨rfl, rfl⟩), fun t' after' hafter' ↦ ?_⟩⟩
        obtain ⟨-, rfl⟩ | hafter' := (declares_enter_iff hrest).mp hafter'
        · exact Nat.le_refl _
        · exact absurd hafter' (hnone t' after')
  | @around module directory target inner rest hinner _ _ _ ihrest =>
    have hsame {t : Path} {after : List Move} :
        Declares (.enter module directory target :: (inner ++ .leave :: rest)) t after ↔ Declares rest t after := by
      have hround : Declares (_ ++ rest) t after ↔ _ := (hinner.round module directory target).declares_append_iff
      simpa using hround
    obtain ⟨s', hrun, htarget⟩ := ihrest s
    refine ⟨s', ?_, ?_⟩
    · rw [run_round (run_of_isBalanced hinner), hrun]
    · simpa only [DeclaresLast, hsame] using htarget

/-! ### Depth -/

/-- The three stacks of a scope have the same height. -/
structure IsLevel (s : Scope) : Prop where
  directories : s.directories.size = s.depth
  targets : s.targets.size = s.depth

theorem isLevel_empty : IsLevel {} := ⟨rfl, rfl⟩

/-- From a level scope a module can be left, unless none has been entered. -/
theorem IsLevel.leave_cases (h : IsLevel s) : s.depth = 0 ∧ s.leave = .error .pop ∨
    ∃ s', s.leave = .ok s' ∧ IsLevel s' ∧ s'.depth + 1 = s.depth := by
  obtain ⟨⟨directories⟩, ⟨targets⟩, ⟨modules⟩⟩ := s
  obtain ⟨hdirectories, htargets⟩ := h
  simp only [Stack.size, depth] at hdirectories htargets
  cases modules with
  | nil =>
    obtain rfl := List.eq_nil_of_length_eq_zero hdirectories
    exact .inl ⟨rfl, rfl⟩
  | cons module modules =>
    obtain ⟨directory, directories, rfl⟩ := List.exists_cons_of_length_eq_add_one hdirectories
    obtain ⟨target, targets, rfl⟩ := List.exists_cons_of_length_eq_add_one htargets
    refine .inr ⟨⟨⟨directories⟩, ⟨targets⟩, ⟨modules⟩⟩, rfl, ⟨?_, ?_⟩, rfl⟩
    · simpa [Stack.size, depth] using hdirectories
    · simpa [Stack.size, depth] using htargets

/-- A move keeps a scope level, and its depth goes up or down by one. -/
theorem IsLevel.apply (h : IsLevel s) {m : Move} (hm : m.apply s = .ok s') :
    IsLevel s' ∧ s'.depth + exits [m] = s.depth + entries [m] := by
  cases m with
  | enter module directory target =>
    cases hm
    refine ⟨⟨?_, ?_⟩, by simp [depth, enter]⟩
    · simpa [depth, enter] using h.directories
    · simpa [depth, enter] using h.targets
  | leave =>
    obtain ⟨-, herror⟩ | ⟨s'', hs'', hlevel, hdepth⟩ := h.leave_cases
    · rw [Move.apply, herror] at hm
      cases hm
    · rw [Move.apply, hs''] at hm
      cases hm
      exact ⟨hlevel, by simpa using hdepth⟩

/-- Moves keep a scope level, and its depth is what has been entered and not left. -/
theorem IsLevel.run (h : IsLevel s) (hrun : run s ms = .ok s') :
    IsLevel s' ∧ s'.depth + exits ms = s.depth + entries ms := by
  induction ms generalizing s with
  | nil =>
    cases hrun
    exact ⟨h, rfl⟩
  | cons m ms ih =>
    rw [Scope.run, List.foldlM_cons, bind_eq_ok] at hrun
    obtain ⟨s₁, hm, hrun⟩ := hrun
    obtain ⟨hlevel₁, hdepth₁⟩ := h.apply hm
    obtain ⟨hlevel, hdepth⟩ := ih hlevel₁ hrun
    have hentries := entries_append [m] ms
    have hexits := exits_append [m] ms
    rw [List.singleton_append] at hentries hexits
    exact ⟨hlevel, by omega⟩

/-- Moves that can be made from the outset never lead out. -/
theorem staysInside_of_run (h : run {} ms = .ok s) : StaysInside ms := by
  rintro front ⟨back, rfl⟩
  rw [run_append, bind_eq_ok] at h
  obtain ⟨s', hfront, -⟩ := h
  have hdepth := (isLevel_empty.run hfront).2
  have hzero : depth {} = 0 := rfl
  omega

/-- In a scope that moves lead to, the stacks have the same height, which tells whether a module can be left. Balanced
moves bring the scope back. The target in effect is the one that was declared last by a module that has not been left,
and there is none if no such module declares one. -/
theorem moves_nested (h : run {} ms = .ok s) :
    (s.directories.size = s.depth ∧ s.targets.size = s.depth ∧ s.depth + exits ms = entries ms) ∧
      (∀ ms', IsBalanced ms' → run s ms' = .ok s) ∧
      (∀ t, s.target = some t ↔ DeclaresLast ms t) ∧
      (s.target = none ↔ ∀ t after, ¬Declares ms t after) ∧
      (∀ e, s.leave = .error e ↔ s.depth = 0 ∧ e = .pop) := by
  obtain ⟨hlevel, hdepth⟩ := isLevel_empty.run h
  have hzero : depth {} = 0 := rfl
  obtain ⟨s', hs', htarget⟩ := (staysInside_of_run h).course.exists_run {}
  obtain rfl : s' = s := Except.ok.inj (hs'.symm.trans h)
  refine ⟨⟨hlevel.directories, hlevel.targets, by omega⟩, fun ms' hms' ↦ run_of_isBalanced hms' s', fun t ↦ ?_, ?_,
    fun e ↦ ?_⟩
  · obtain ⟨t', ht', hlast⟩ | ⟨hnone, hdeclares⟩ := htarget
    · rw [ht', Option.some.injEq]
      exact ⟨fun heq ↦ heq ▸ hlast, hlast.unique⟩
    · refine ⟨fun ht ↦ ?_, fun ⟨after, hafter, _⟩ ↦ absurd hafter (hdeclares t after)⟩
      rw [hnone] at ht
      cases ht
  · obtain ⟨t', ht', after, hafter, -⟩ | ⟨hnone, hdeclares⟩ := htarget
    · rw [ht']
      exact ⟨fun heq ↦ (Option.some_ne_none _ heq).elim, fun hnone ↦ absurd hafter (hnone t' after)⟩
    · exact ⟨fun _ ↦ hdeclares, fun _ ↦ hnone⟩
  · obtain ⟨hempty, herror⟩ | ⟨s'', hs'', -, hdepth⟩ := hlevel.leave_cases
    · rw [herror, Except.error.injEq]
      exact ⟨fun he ↦ ⟨hempty, he.symm⟩, fun ⟨_, he⟩ ↦ he.symm⟩
    · rw [hs'']
      refine ⟨fun heq ↦ ?_, fun ⟨hempty, _⟩ ↦ ?_⟩
      · cases heq
      · omega

/-- The target of the root module. -/
def app : Path := .ofString "app"

/-- The root module is entered, then a library with a target of its own. That is left, and a module without a target is
entered. -/
def untilTests : List Move :=
  [.enter (.ofString "main.ini") .here app,
    .enter (.ofString "lib/module.ini") (.ofString "lib") (some (.ofString "lib/libutil.a")), .leave,
    .enter (.ofString "tests/module.ini") (.ofString "tests") none]

/-- The scope of that module. -/
def inTests : Scope :=
  (enter {} (.ofString "main.ini") .here app).enter (.ofString "tests/module.ini") (.ofString "tests") none

/-- The root's target is in effect again, though the library's was declared behind it. -/
theorem moves_nested_of_inherited : run {} untilTests = .ok inTests ∧ inTests.depth = 2 ∧
    (∀ ms, IsBalanced ms → run inTests ms = .ok inTests) ∧ inTests.target = some app ∧
    DeclaresLast untilTests app ∧ ∀ e, inTests.leave ≠ .error e := by
  have h : run {} untilTests = .ok inTests := rfl
  have htarget : inTests.target = some app := rfl
  obtain ⟨-, hback, hlast, -, hleave⟩ := moves_nested h
  refine ⟨h, rfl, hback, htarget, (hlast app).mp htarget, fun e he ↦ ?_⟩
  have hdepth := ((hleave e).mp he).1
  cases hdepth

end ModuleBuild.Scope
