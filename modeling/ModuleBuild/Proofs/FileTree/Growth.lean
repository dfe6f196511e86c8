import ModuleBuild.Proofs.FileTree.Making

/-!
# How file trees grow

A tree grows when files are written, directories are made above them, and nothing is removed but at locations that are
known (`Grows`). As long as nothing is written on the way to a path, what stands there can be told (`Opens.persists`),
and so can, by what has been written and made, whether something has come to stand there.
-/

namespace ModuleBuild.FileTree

/-- The second tree comes from the first by writing files at some locations and making directories at others. What
stood anywhere is still there, unless its location may be cleared. -/
structure Grows (t u : FileTree) (written cleared made : Set Location) : Prop
    extends t.Touches u (written ∪ cleared) made where
  directory_of : ∀ l m, u.entry? l = some (.directory m) → t.entry? l = some (.directory m) ∨ l ∈ made
  stays : ∀ l, l ∉ cleared → t.entry? l ≠ none → u.entry? l ≠ none

variable {t u v : FileTree} {written written' cleared cleared' made made' : Set Location} {p : Path} {now : Timestamp}

namespace Grows

theorem refl (t : FileTree) (written cleared made : Set Location) : t.Grows t written cleared made where
  toTouches := .refl ..
  directory_of := fun _ _ h ↦ .inl h
  stays := fun _ _ h ↦ h

theorem mono (h : t.Grows u written cleared made) (hw : written ∪ cleared ⊆ written' ∪ cleared')
    (hc : cleared ⊆ cleared') (hm : made ⊆ made') : t.Grows u written' cleared' made' where
  toTouches := h.toTouches.mono hw hm
  directory_of := fun l m hd ↦ (h.directory_of l m hd).imp_right fun hl ↦ hm hl
  stays := fun l hl ↦ h.stays l fun hl' ↦ hl (hc hl')

theorem trans (h : t.Grows u written cleared made) (h' : u.Grows v written cleared made) :
    t.Grows v written cleared made where
  toTouches := h.toTouches.trans h'.toTouches
  directory_of := fun l m hd ↦ (h'.directory_of l m hd).elim (h.directory_of l m) .inr
  stays := fun l hl he ↦ h'.stays l hl (h.stays l hl he)

end Grows

/-- A tree grows by directories alone. -/
theorem Touches.grows (h : t.Touches u ∅ made) : t.Grows u ∅ ∅ made where
  toTouches := h.mono (Set.empty_subset _) (Set.Subset.refl _)
  directory_of := by
    intro l m hd
    rcases h.kept l (Set.notMem_empty l) with hkept | ⟨-, hmade, -⟩
    · exact .inl (hkept ▸ hd)
    · exact .inr hmade
  stays := by
    intro l _ he
    obtain ⟨e, he⟩ := Option.ne_none_iff_exists'.mp he
    rw [h.entry?_eq_some (Set.notMem_empty l) he]
    simp

/-- What stands at a path can be told: no double dot and no file is on the way, and no name is too long. -/
structure Opens (t : FileTree) (p : Path) : Prop where
  isStraight : p.IsStraight
  isNameable : p.IsNameable
  isClear : t.IsClear (t.place p).tail

namespace Opens

theorem persists (h : t.Opens p) (hgrows : t.Grows u written cleared made)
    (hoff : ∀ l ∈ upTo (t.place p).tail, l ∉ written ∪ cleared) : u.Opens p where
  isStraight := h.isStraight
  isNameable := h.isNameable
  isClear := by
    rw [hgrows.place_eq]
    exact (hgrows.isClear_iff hoff).mpr h.isClear

/-- Nothing is found where nothing stands. -/
theorem stat_eq_notFound (h : t.Opens p) (hnone : t.entry? (t.place p) = none) : t.stat p = .error .notFound := by
  have hclear : t.IsClear (t.place p) := by
    intro l hl bytes m hfile
    cases hplace : t.place p with
    | nil => simp [hplace] at hnone
    | cons s l' =>
      rw [hplace] at hl hnone
      rcases List.suffix_cons_iff.mp hl with rfl | hl
      · simp [hnone] at hfile
      · exact h.isClear l (by rwa [hplace]) bytes m hfile
  unfold stat
  cases hl : t.locate p with
  | ok l =>
    obtain rfl := eq_place_of_locate hl
    rw [ok_bind, hnone]
  | error r => rw [refusal_of_isClear h.isStraight h.isNameable hclear hl, error_bind]

/-- The time of the last change can be asked for. -/
theorem exists_modified? (h : t.Opens p) (ht : t.WellFormed) : ∃ m?, t.modified? p = .ok m? := by
  cases he : t.entry? (t.place p) with
  | none => exact ⟨none, modified?_eq_ok.mpr (.inr ⟨h.stat_eq_notFound he, rfl⟩)⟩
  | some e => exact ⟨_, modified?_eq_ok.mpr (.inl ⟨e, (ht.stat_eq_ok h.isStraight).mpr ⟨h.isNameable, he⟩, rfl⟩)⟩

theorem time?_eq_none_iff (h : t.Opens p) (ht : t.WellFormed) : t.time? p = none ↔ t.entry? (t.place p) = none := by
  rw [time?_eq_none]
  constructor
  · intro hnone
    by_contra hsome
    obtain ⟨e, he⟩ := Option.ne_none_iff_exists'.mp hsome
    exact hnone e ((ht.stat_eq_ok h.isStraight).mpr ⟨h.isNameable, he⟩)
  · intro hnone e he
    simp [h.stat_eq_notFound hnone] at he

/-- The directory of a file can be seen to, and by that the tree grows. -/
theorem exists_ensureParent (h : t.Opens p) (ht : t.WellFormed) (hp : p.segments ≠ []) :
    ∃ u, t.ensureDirectory p.parent = (u, .ok ()) ∧ t.Grows u ∅ ∅ (upTo (t.place p).tail) ∧
      ∃ m, u.entry? (u.place p).tail = some (.directory m) := by
  have hs : p.parent.IsStraight := fun s hs ↦ h.isStraight s (List.dropLast_subset _ hs)
  have hplace (t : FileTree) : t.place p.parent = (t.place p).tail := place_parent t h.isStraight hp
  obtain ⟨u, hu⟩ := exists_ensureDirectory ht hs h.isNameable.parent (hplace t ▸ h.isClear)
  obtain ⟨hev, m, hdir⟩ := evolves_ensureDirectory ht t.clock hs hu
  refine ⟨u, hu, hplace t ▸ hev.toTouches.grows, m, ?_⟩
  rw [← hplace]
  exact (stat_eq_ok.mp hdir).2

/-- The name of a file can be looked up in a directory that is there. -/
theorem locate_eq_ok (h : t.Opens p) (ht : t.WellFormed) (hp : p.segments ≠ []) {m : Timestamp}
    (hparent : t.entry? (t.place p).tail = some (.directory m)) : t.locate p = .ok (t.place p) :=
  ht.locate_of_parent h.isStraight h.isNameable hp hparent

end Opens

/-- Nothing has come to stand where nothing was written and no directory made. -/
theorem Grows.entry?_eq_none (h : t.Grows u written cleared made) {l : Location} (hnone : t.entry? l = none)
    (hw : l ∉ written ∪ cleared) (hm : l ∉ made) : u.entry? l = none := by
  rcases h.kept l hw with hkept | ⟨-, hmade, -⟩
  · exact hkept.trans hnone
  · exact absurd hmade hm

end ModuleBuild.FileTree
