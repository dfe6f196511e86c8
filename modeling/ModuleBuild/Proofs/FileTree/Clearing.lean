import ModuleBuild.Proofs.FileTree.Evolution

/-!
# Clearing files away

Whether a file is found at a path (`hasFile`), and what removing files does: those at some locations are gone, and
nothing else has changed (`Clears`). Directories stay, so that every other file is found where it was found.
-/

namespace ModuleBuild.FileTree

variable {t u v : FileTree} {p : Path} {l : Location} {ls ls' : Set Location}

/-- A file is found at the path. -/
def hasFile (t : FileTree) (p : Path) : Bool := (t.stat p).toOption.any Entry.isFile

theorem hasFile_eq_true : t.hasFile p = true ↔ ∃ bytes m, t.stat p = .ok (.file bytes m) := by
  unfold hasFile
  cases h : t.stat p with
  | error r => simp [Except.toOption]
  | ok e => cases e <;> simp [Except.toOption, Entry.isFile]

theorem hasFile_iff_locate : t.hasFile p = true ↔ ∃ l bytes m, t.locate p = .ok l ∧
    t.entry? l = some (.file bytes m) := by
  rw [hasFile_eq_true]
  constructor
  · rintro ⟨bytes, m, h⟩
    exact ⟨_, bytes, m, stat_eq_ok.mp h⟩
  · rintro ⟨l, bytes, m, hl, hfile⟩
    obtain rfl := eq_place_of_locate hl
    exact ⟨bytes, m, stat_eq_ok.mpr ⟨hl, hfile⟩⟩

/-- Whether a file stands at a path is known unless a name on the way is too long. -/
theorem isFile_eq_hasFile (h : t.stat p ≠ .error .nameTooLong) : t.isFile p = .ok (t.hasFile p) :=
  isFile_eq_ok.mpr ⟨h, rfl⟩

/-! ### Names that are too long -/

theorem stat_eq_nameTooLong : t.stat p = .error .nameTooLong ↔ t.locate p = .error .nameTooLong := by
  unfold stat
  cases h : t.locate p with
  | error r => simp
  | ok l =>
    rw [ok_bind]
    cases t.entry? l <;> simp

/-- A name is found too long where this is found in a tree with no more directories. -/
theorem enterAll_nameTooLong
    (hdir : ∀ l m, u.entry? l = some (.directory m) → t.entry? l = some (.directory m)) {ss : List Segment}
    (h : u.enterAll l ss = .error .nameTooLong) : t.enterAll l ss = .error .nameTooLong := by
  induction ss generalizing l with
  | nil => simp [enterAll] at h
  | cons s ss ih =>
    rw [enterAll] at h ⊢
    rcases bind_eq_error.mp h with hfirst | ⟨l₁, hfirst, hrest⟩
    · unfold enter at hfirst ⊢
      split at hfirst
      · simp at hfirst
      · simp at hfirst
      · next m hm =>
        rw [hdir l m hm]
        exact bind_eq_error.mpr (.inl hfirst)
    · obtain ⟨⟨m, hm⟩, hs, hl⟩ := enter_eq_ok.mp hfirst
      rw [enter_eq_ok.mpr ⟨⟨m, hdir l m hm⟩, hs, hl⟩, ok_bind]
      exact ih hrest

/-- A path is found too long where this is found in a tree with no more directories. -/
theorem stat_nameTooLong (hcurrent : u.current = t.current)
    (hdir : ∀ l m, u.entry? l = some (.directory m) → t.entry? l = some (.directory m))
    (h : u.stat p = .error .nameTooLong) : t.stat p = .error .nameTooLong := by
  rw [stat_eq_nameTooLong] at h ⊢
  unfold locate at h ⊢
  dsimp only at h ⊢
  split at h
  · simp at h
  · next hnull =>
    rw [if_neg hnull]
    split at h
    · next hlong => rw [if_pos hlong]
    · next hlong =>
      rw [if_neg hlong]
      rw [hcurrent] at h
      exact enterAll_nameTooLong hdir h

/-! ### Files that are gone -/

/-- The files at some locations are gone, and nothing else has changed. -/
structure Clears (t u : FileTree) (ls : Set Location) : Prop where
  current : u.current = t.current
  clock : u.clock = t.clock
  gone : ∀ l ∈ ls, u.entry? l = none ∧ ∃ bytes m, t.entry? l = some (.file bytes m)
  kept : ∀ l, l ∉ ls → u.entry? l = t.entry? l

/-- Removing a file clears it away. -/
theorem clears_of_remove (h : t.remove p = .ok u) : t.Clears u {t.place p} := by
  obtain ⟨hev, hnone⟩ := evolves_remove t.clock h
  obtain ⟨l, bytes, m, hl, hfile, -⟩ := remove_eq_ok.mp h
  obtain rfl := eq_place_of_locate hl
  refine ⟨hev.current, hev.clock, fun l hl ↦ hl ▸ ⟨hnone, bytes, m, hfile⟩, fun l hl ↦ ?_⟩
  exact hev.entry?_eq hl (by simp)

namespace Clears

theorem refl (t : FileTree) : t.Clears t ∅ := ⟨rfl, rfl, by simp, fun _ _ ↦ rfl⟩

theorem trans (h : t.Clears u ls) (h' : u.Clears v ls') : t.Clears v (ls ∪ ls') where
  current := h'.current.trans h.current
  clock := h'.clock.trans h.clock
  gone := by
    intro l hl
    by_cases hfirst : l ∈ ls
    · obtain ⟨hnone, hfile⟩ := h.gone l hfirst
      by_cases hsecond : l ∈ ls'
      · exact ⟨(h'.gone l hsecond).1, hfile⟩
      · exact ⟨(h'.kept l hsecond).trans hnone, hfile⟩
    · obtain ⟨hnone, hfile⟩ := h'.gone l (hl.resolve_left hfirst)
      exact ⟨hnone, h.kept l hfirst ▸ hfile⟩
  kept := by
    intro l hl
    exact (h'.kept l fun hl' ↦ hl (.inr hl')).trans (h.kept l fun hl' ↦ hl (.inl hl'))

variable (h : t.Clears u ls)

include h

theorem directory_iff {m : Timestamp} :
    u.entry? l = some (.directory m) ↔ t.entry? l = some (.directory m) := by
  by_cases hl : l ∈ ls
  · obtain ⟨hnone, bytes, m', hfile⟩ := h.gone l hl
    simp [hnone, hfile]
  · rw [h.kept l hl]

/-- Ways are open where they were open. -/
theorem locate_iff : u.locate p = .ok l ↔ t.locate p = .ok l :=
  ⟨locate_of_directory h.current.symm fun _ m hm ↦ ⟨m, h.directory_iff.mp hm⟩,
    locate_of_directory h.current fun _ m hm ↦ ⟨m, h.directory_iff.mpr hm⟩⟩

/-- The files that are left are those that were found elsewhere. -/
theorem entry?_file_iff {bytes : ByteArray} {m : Timestamp} :
    u.entry? l = some (.file bytes m) ↔ t.entry? l = some (.file bytes m) ∧ l ∉ ls := by
  by_cases hl : l ∈ ls
  · simp [(h.gone l hl).1, hl]
  · simp [h.kept l hl, hl]

/-- Files are found at paths that lead elsewhere. -/
theorem hasFile_iff : u.hasFile p = true ↔ t.hasFile p = true ∧ t.place p ∉ ls := by
  simp only [hasFile_iff_locate, h.locate_iff, h.entry?_file_iff]
  constructor
  · rintro ⟨l, bytes, m, hl, hfile, hoff⟩
    exact ⟨⟨l, bytes, m, hl, hfile⟩, eq_place_of_locate hl ▸ hoff⟩
  · rintro ⟨⟨l, bytes, m, hl, hfile⟩, hoff⟩
    exact ⟨l, bytes, m, hl, hfile, (eq_place_of_locate hl).symm ▸ hoff⟩

/-- Paths can be looked up that could be. -/
theorem stat_ne_nameTooLong (hp : t.stat p ≠ .error .nameTooLong) : u.stat p ≠ .error .nameTooLong :=
  fun hlong ↦ hp (stat_nameTooLong h.current (fun _ _ hm ↦ h.directory_iff.mp hm) hlong)

end Clears

end ModuleBuild.FileTree
