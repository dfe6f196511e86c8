import ModuleBuild.FileTree.Basic
import ModuleBuild.Proofs.Answers

/-!
# Looking up paths

A look-up that succeeds ends where the segments of the path lead, whatever the tree holds
(`eq_place_of_locate`): double dots are followed from directory to directory, so that what the tree holds
decides only whether the way is open. A path is found in every tree in which the directories on the way
are still there.
-/

namespace ModuleBuild

namespace Location

theorem foldl_step_replicate_up (l : Location) (n : Nat) :
    (List.replicate n Segment.up).foldl step l = l.drop n := by
  induction n generalizing l with
  | zero => rfl
  | succ n ih => simp [List.replicate_succ, ih]

/-- Names lead downwards, each one step. -/
theorem foldl_step_of_ne_up {l : Location} {ss : List Segment} (h : ∀ s ∈ ss, s ≠ .up) :
    ss.foldl step l = ss.reverse ++ l := by
  induction ss generalizing l with
  | nil => rfl
  | cons s ss ih =>
    have hs : l.step s = s :: l := if_neg (h s (by simp))
    simp [hs, ih fun t ht ↦ h t (by simp [ht])]

end Location

namespace FileTree

/-- Where a path leads from the current directory, going by its segments alone. -/
def place (t : FileTree) (p : Path) : Location := Location.follow t.current p

/-- Where a path leads hangs on the current directory alone. -/
theorem place_congr {t u : FileTree} (h : u.current = t.current) (p : Path) : u.place p = t.place p := by
  rw [place, place, h]

/-- A segment can be followed from a directory, unless its name is too long. -/
theorem enter_eq_ok {t : FileTree} {l l' : Location} {s : Segment} :
    t.enter l s = .ok l' ↔
      (∃ m, t.entry? l = some (.directory m)) ∧ (s = .up ∨ s.text.utf8ByteSize ≤ maxName) ∧
        l' = l.step s := by
  unfold enter
  cases h : t.entry? l with
  | none => simp
  | some e =>
    cases e with
    | file bytes m => simp
    | directory m =>
      by_cases hs : s = .up
      · simp [hs, eq_comm]
      · by_cases hn : s.text.utf8ByteSize ≤ maxName
        · simp [hs, hn, Location.step, eq_comm]
        · simp [hs, hn]

theorem enterAll_append {t : FileTree} {l : Location} {ss ss' : List Segment} :
    t.enterAll l (ss ++ ss') = t.enterAll l ss >>= fun l' ↦ t.enterAll l' ss' := by
  induction ss generalizing l with
  | nil => rfl
  | cons s ss ih =>
    simp only [List.cons_append, enterAll]
    cases t.enter l s with
    | error r => rfl
    | ok l' => exact ih

/-- Segments that can be followed lead where they lead in every tree. -/
theorem eq_foldl_of_enterAll {t : FileTree} {l l' : Location} {ss : List Segment}
    (h : t.enterAll l ss = .ok l') : l' = ss.foldl Location.step l := by
  induction ss generalizing l with
  | nil => simpa [enterAll, eq_comm] using h
  | cons s ss ih =>
    obtain ⟨l₁, h₁, h₂⟩ := bind_eq_ok.mp h
    have hl₁ := (enter_eq_ok.mp h₁).2.2
    subst hl₁
    exact ih h₂

/-- What the text of a path that is looked up has to be like, whatever the tree holds. -/
theorem locate_eq_ok {t : FileTree} {p : Path} {l : Location} :
    t.locate p = .ok l ↔
      '\x00' ∉ (toString p).toList ∧ (toString p).utf8ByteSize < maxPath ∧
        t.enterAll (if p.isAbsolute then [] else t.current) p.segments = .ok l := by
  unfold locate
  by_cases h₀ : '\x00' ∈ (toString p).toList
  · simp [h₀]
  · by_cases h₁ : maxPath ≤ (toString p).utf8ByteSize
    · simp only [List.contains_eq_mem, h₀, decide_false, Bool.false_eq_true, if_false, h₁, if_true,
        reduceCtorEq, not_false_eq_true, true_and, false_iff]
      omega
    · simp only [List.contains_eq_mem, h₀, decide_false, Bool.false_eq_true, if_false, h₁,
        not_false_eq_true, true_and]
      exact ⟨fun h ↦ ⟨by omega, h⟩, fun h ↦ h.2⟩

/-- A look-up that succeeds ends where the path leads. -/
theorem eq_place_of_locate {t : FileTree} {p : Path} {l : Location} (h : t.locate p = .ok l) :
    l = t.place p :=
  eq_foldl_of_enterAll (locate_eq_ok.mp h).2.2

/-- Something is found at a path if the way there is open and something stands where it leads. -/
theorem stat_eq_ok {t : FileTree} {p : Path} {e : Entry} :
    t.stat p = .ok e ↔ t.locate p = .ok (t.place p) ∧ t.entry? (t.place p) = some e := by
  unfold stat
  cases h : t.locate p with
  | error r => simp
  | ok l =>
    have hl := eq_place_of_locate h
    subst hl
    simp only [ok_bind, true_and]
    split
    · next e' he => simp [he]
    · next he => simp [he]

/-- What stands at a path is known unless a name on the way is too long. -/
theorem probe_eq_ok {t : FileTree} {p : Path} {e? : Option Entry} :
    t.probe p = .ok e? ↔ t.stat p ≠ .error .nameTooLong ∧ e? = (t.stat p).toOption := by
  unfold probe
  cases h : t.stat p with
  | ok e => simp [Except.toOption, eq_comm]
  | error r => cases r <;> simp [Except.toOption, eq_comm]

theorem isFile_eq_ok {t : FileTree} {p : Path} {b : Bool} :
    t.isFile p = .ok b ↔
      t.stat p ≠ .error .nameTooLong ∧ b = ((t.stat p).toOption.any Entry.isFile) := by
  simp only [isFile, map_eq_ok, probe_eq_ok]
  constructor
  · rintro ⟨_, ⟨h, rfl⟩, rfl⟩
    exact ⟨h, rfl⟩
  · rintro ⟨h, rfl⟩
    exact ⟨_, ⟨h, rfl⟩, rfl⟩

/-- A file stands at a path exactly if a file is found there. -/
theorem isFile_eq_true {t : FileTree} {p : Path} :
    t.isFile p = .ok true ↔ ∃ bytes m, t.stat p = .ok (.file bytes m) := by
  rw [isFile_eq_ok]
  cases h : t.stat p with
  | error r => simp [Except.toOption]
  | ok e => cases e <;> simp [Except.toOption, Entry.isFile]

theorem isDirectory_eq_ok {t : FileTree} {p : Path} {b : Bool} :
    t.isDirectory p = .ok b ↔
      t.stat p ≠ .error .nameTooLong ∧ b = ((t.stat p).toOption.any (!·.isFile)) := by
  simp only [isDirectory, map_eq_ok, probe_eq_ok]
  constructor
  · rintro ⟨_, ⟨h, rfl⟩, rfl⟩
    exact ⟨h, rfl⟩
  · rintro ⟨h, rfl⟩
    exact ⟨_, ⟨h, rfl⟩, rfl⟩

/-- A directory stands at a path exactly if a directory is found there. -/
theorem isDirectory_eq_true {t : FileTree} {p : Path} :
    t.isDirectory p = .ok true ↔ ∃ m, t.stat p = .ok (.directory m) := by
  rw [isDirectory_eq_ok]
  cases h : t.stat p with
  | error r => simp [Except.toOption]
  | ok e => cases e <;> simp [Except.toOption, Entry.isFile]

/-- The bytes that are read at a path are those of the file that is found there. -/
theorem read_eq_ok {t : FileTree} {p : Path} {bytes : ByteArray} :
    t.read p = .ok bytes ↔ ∃ m, t.stat p = .ok (.file bytes m) := by
  unfold read
  cases t.stat p with
  | error r => simp
  | ok e => cases e <;> simp

/-- The time of the last change at a path is that of what is found there; none means that nothing is. -/
theorem modified?_eq_ok {t : FileTree} {p : Path} {m? : Option Timestamp} :
    t.modified? p = .ok m? ↔
      (∃ e, t.stat p = .ok e ∧ m? = some e.modified) ∨ t.stat p = .error .notFound ∧ m? = none := by
  unfold modified?
  cases t.stat p with
  | ok e => simp [eq_comm]
  | error r => cases r <;> simp [eq_comm]

end FileTree

end ModuleBuild
