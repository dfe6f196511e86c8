import ModuleBuild.Proofs.FileTree.Shape
import Mathlib.Data.Set.Basic

/-!
# How file trees evolve

What a program may do to a file tree: it writes at some locations, and makes directories at others where
nothing stood (`Touches`); directories stay, and so does what is found at a path that is not written
(`Touches.stat_eq_ok`). If moreover what is new bears the time of the clock or the time at which commands
stamp what they write, the tree evolves (`Evolves`). The operations on file trees are evolutions: writing and
removing a file touch one location, and seeing to a directory makes those on the way to it.
-/

namespace ModuleBuild.FileTree

/-- The second tree comes from the first by writing at some locations and making directories at others. -/
structure Touches (t t' : FileTree) (written made : Set Location) : Prop where
  current : t'.current = t.current
  clock : t'.clock = t.clock
  kept : ∀ l, l ∉ written → t'.entry? l = t.entry? l ∨
    t.entry? l = none ∧ l ∈ made ∧ t'.entry? l = some (.directory t.clock)
  directory : ∀ l m, t.entry? l = some (.directory m) → t'.entry? l = some (.directory m)
  wellFormed : t.WellFormed → t'.WellFormed

/-- The second tree comes from the first by writing at some locations and making directories at others,
by the clock or at the time `now`. -/
structure Evolves (t t' : FileTree) (now : Timestamp) (written made : Set Location) : Prop
    extends t.Touches t' written made where
  stamped : ∀ l e, t'.entry? l = some e →
    t.entry? l = some e ∨ e.modified = t.clock ∨ e.modified = now

/-- Nothing was changed after a time, and the clock stands no later. -/
def NoLater (t : FileTree) (now : Timestamp) : Prop := ∀ l e, t.entry? l = some e → e.modified ≤ now

/-- All files were changed before a time. -/
def FilesBefore (t : FileTree) (now : Timestamp) : Prop :=
  ∀ l bytes m, t.entry? l = some (.file bytes m) → m < now

theorem NoLater.le_of_time? {t : FileTree} {now m : Timestamp} {p : Path} (h : t.NoLater now)
    (hm : t.time? p = some m) : m ≤ now := by
  obtain ⟨e, he, rfl⟩ := time?_eq_some.mp hm
  exact h _ e (FileTree.stat_eq_ok.mp he).2

namespace Touches

variable {t t' t'' : FileTree} {written written' made made' : Set Location} {p : Path} {l : Location}

theorem refl (t : FileTree) (written made : Set Location) : t.Touches t written made where
  current := rfl
  clock := rfl
  kept := fun _ _ ↦ .inl rfl
  directory := fun _ _ h ↦ h
  wellFormed := id

theorem mono (h : t.Touches t' written made) (hw : written ⊆ written') (hm : made ⊆ made') :
    t.Touches t' written' made' where
  current := h.current
  clock := h.clock
  kept := fun l hl ↦ (h.kept l fun hl' ↦ hl (hw hl')).imp_right fun ⟨hn, hd, he⟩ ↦ ⟨hn, hm hd, he⟩
  directory := h.directory
  wellFormed := h.wellFormed

theorem trans (h : t.Touches t' written made) (h' : t'.Touches t'' written made) :
    t.Touches t'' written made where
  current := h'.current.trans h.current
  clock := h'.clock.trans h.clock
  kept := by
    intro l hl
    rcases h.kept l hl with he | ⟨hn, hd, he⟩
    · rcases h'.kept l hl with he' | ⟨hn', hd', he'⟩
      · exact .inl (he'.trans he)
      · exact .inr ⟨he.symm.trans hn', hd', h.clock ▸ he'⟩
    · exact .inr ⟨hn, hd, h'.directory l _ he⟩
  directory := fun l m hd ↦ h'.directory l m (h.directory l m hd)
  wellFormed := fun hw ↦ h'.wellFormed (h.wellFormed hw)

/-- Paths lead where they led. -/
theorem place_eq (h : t.Touches t' written made) (p : Path) : t'.place p = t.place p :=
  place_congr h.current p

/-- An entry that is not written stays. -/
theorem entry?_eq_some (h : t.Touches t' written made) (hl : l ∉ written) {e : Entry}
    (he : t.entry? l = some e) : t'.entry? l = some e := by
  rcases h.kept l hl with he' | ⟨hn, -, -⟩
  · exact he'.trans he
  · exact absurd (hn.symm.trans he) (by simp)

/-- Nothing changes at a location that is not written, unless a directory is made there. -/
theorem entry?_eq (h : t.Touches t' written made) (hl : l ∉ written)
    (hm : l ∈ made → t.entry? l ≠ none) : t'.entry? l = t.entry? l := by
  rcases h.kept l hl with he | ⟨hn, hd, -⟩
  · exact he
  · exact absurd hn (hm hd)

/-- A way that was open stays open. -/
theorem locate_eq_ok (h : t.Touches t' written made) (hp : t.locate p = .ok l) :
    t'.locate p = .ok l :=
  locate_of_directory h.current (fun l m hm ↦ ⟨m, h.directory l m hm⟩) hp

/-- What is found at a path that is not written is still found there. -/
theorem stat_eq_ok (h : t.Touches t' written made) (hp : t.place p ∉ written) {e : Entry}
    (he : t.stat p = .ok e) : t'.stat p = .ok e := by
  obtain ⟨hl, he⟩ := FileTree.stat_eq_ok.mp he
  have hplace := h.place_eq p
  rw [← hplace] at hl
  exact FileTree.stat_eq_ok.mpr ⟨h.locate_eq_ok hl, hplace ▸ h.entry?_eq_some hp he⟩

/-- What is found at a path that is not written keeps its time. -/
theorem time?_eq_some (h : t.Touches t' written made) (hp : t.place p ∉ written) {m : Timestamp}
    (hm : t.time? p = some m) : t'.time? p = some m := by
  obtain ⟨e, he, hm⟩ := FileTree.time?_eq_some.mp hm
  exact FileTree.time?_eq_some.mpr ⟨e, h.stat_eq_ok hp he, hm⟩

/-- A directory is found where it was found. -/
theorem stat_eq_directory (h : t.Touches t' written made) {m : Timestamp}
    (he : t.stat p = .ok (.directory m)) : t'.stat p = .ok (.directory m) := by
  obtain ⟨hl, he⟩ := FileTree.stat_eq_ok.mp he
  have hplace := h.place_eq p
  rw [← hplace] at hl
  exact FileTree.stat_eq_ok.mpr ⟨h.locate_eq_ok hl, hplace ▸ h.directory _ m he⟩

/-- What is found at a path without double dots was found there, unless the path is written or leads to a
directory that is made. -/
theorem stat_iff (h : t.Touches t' written made) (ht : t.WellFormed) (hs : p.IsStraight)
    (hp : t.place p ∉ written) (hm : t.place p ∈ made → t.entry? (t.place p) ≠ none) {e : Entry} :
    t'.stat p = .ok e ↔ t.stat p = .ok e := by
  rw [ht.stat_eq_ok hs, (h.wellFormed ht).stat_eq_ok hs, h.place_eq, h.entry?_eq hp hm]

/-- A file is found at a path without double dots if one was found there, unless the path is written. -/
theorem stat_eq_file_iff (h : t.Touches t' written made) (ht : t.WellFormed) (hs : p.IsStraight)
    (hp : t.place p ∉ written) {bytes : ByteArray} {m : Timestamp} :
    t'.stat p = .ok (.file bytes m) ↔ t.stat p = .ok (.file bytes m) := by
  rw [ht.stat_eq_ok hs, (h.wellFormed ht).stat_eq_ok hs, h.place_eq]
  rcases h.kept _ hp with he | ⟨hn, -, he⟩
  · rw [he]
  · simp [hn, he]

/-- The time at a path without double dots stays, unless the path is written or leads to a directory that
is made. -/
theorem time?_eq (h : t.Touches t' written made) (ht : t.WellFormed) (hs : p.IsStraight)
    (hp : t.place p ∉ written) (hm : t.place p ∈ made → t.entry? (t.place p) ≠ none) :
    t'.time? p = t.time? p := by
  cases htime : t.time? p with
  | none =>
    rw [time?_eq_none] at htime ⊢
    exact fun e he ↦ htime e ((h.stat_iff ht hs hp hm).mp he)
  | some m => exact h.time?_eq_some hp htime

/-- A path that does not lead to a file yet, and will, is not barred by what was written before, unless
that is written again. -/
theorem modified?_eq_ok (h : t.Touches t' written made) (ht : t.WellFormed) (hs : p.IsStraight)
    (hp : t.place p ∉ written) (h' : t'.Touches t'' written' made')
    (hdisjoint : ∀ l ∈ written', l ∉ written) {bytes : ByteArray} {m : Timestamp}
    (hfile : t''.stat p = .ok (.file bytes m)) {m? : Option Timestamp}
    (hm : t.modified? p = .ok m?) : t'.modified? p = .ok m? := by
  rcases FileTree.modified?_eq_ok.mp hm with ⟨e, he, rfl⟩ | ⟨hnone, rfl⟩
  · exact FileTree.modified?_eq_ok.mpr (.inl ⟨e, h.stat_eq_ok hp he, rfl⟩)
  · have ht' := h.wellFormed ht
    have ht'' := h'.wellFormed ht'
    obtain ⟨hn, hfile⟩ := (ht''.stat_eq_ok hs).mp hfile
    obtain ⟨hempty, hopen⟩ := (ht.stat_eq_notFound hs hn).mp hnone
    refine FileTree.modified?_eq_ok.mpr (.inr ⟨(ht'.stat_eq_notFound hs hn).mpr ⟨?_, ?_⟩, rfl⟩)
    · rw [h.place_eq]
      rcases h.kept _ hp with hkept | ⟨-, -, hdir⟩
      · exact hkept.trans hempty
      · rw [h'.place_eq, h.place_eq, h'.directory _ _ hdir] at hfile
        simp at hfile
    · rintro ⟨ss, s, ss', bytes', m', hsegments, hbar⟩
      have hup : ∀ s' ∈ ss, s' ≠ .up := fun s' hs' ↦ hs s' (by simp [hsegments, hs'])
      -- in the end a directory stands where the file is
      obtain ⟨m'', hdir⟩ : ∃ m'', t''.entry? (t'.place ⟨p.anchor, ss⟩) = some (.directory m'') := by
        rw [← h'.place_eq]
        have hbelow : t''.entry? ((s :: ss').reverse ++ t''.place ⟨p.anchor, ss⟩) =
            some (.file bytes m) := by
          rw [place_of_isStraight _ hs, hsegments] at hfile
          rw [place_of_isStraight _ (p := ⟨p.anchor, ss⟩) hup]
          simpa [Path.isAbsolute] using hfile
        have hne : (s :: ss').reverse ≠ [] := by simp
        exact ht''.directory_of_append hne hbelow
      have hwritten' : t'.place ⟨p.anchor, ss⟩ ∈ written' := by
        by_contra hoff
        rw [h'.entry?_eq_some hoff hbar] at hdir
        simp at hdir
      rcases h.kept _ (hdisjoint _ hwritten') with hkept | ⟨-, -, hmade⟩
      · refine hopen ⟨ss, s, ss', bytes', m', hsegments, ?_⟩
        rw [h.place_eq] at hbar hkept
        exact hkept.symm.trans hbar
      · rw [hbar] at hmade
        simp at hmade

end Touches

namespace Evolves

variable {t t' t'' : FileTree} {now : Timestamp} {written written' made made' : Set Location}

theorem refl (t : FileTree) (now : Timestamp) (written made : Set Location) :
    t.Evolves t now written made where
  toTouches := .refl t written made
  stamped := fun _ _ h ↦ .inl h

theorem mono (h : t.Evolves t' now written made) (hw : written ⊆ written') (hm : made ⊆ made') :
    t.Evolves t' now written' made' where
  toTouches := h.toTouches.mono hw hm
  stamped := h.stamped

theorem trans (h : t.Evolves t' now written made) (h' : t'.Evolves t'' now written made) :
    t.Evolves t'' now written made where
  toTouches := h.toTouches.trans h'.toTouches
  stamped := by
    intro l e he
    rcases h'.stamped l e he with he | hclock | hnow
    · exact h.stamped l e he
    · exact .inr (.inl (hclock.trans h.clock))
    · exact .inr (.inr hnow)

/-- If nothing was changed after a time, and what is written bears that time, this stays so. -/
theorem noLater (h : t.Evolves t' now written made) (ht : t.NoLater now) : t'.NoLater now := by
  intro l e he
  rcases h.stamped l e he with he | hclock | hnow
  · exact ht l e he
  · exact hclock ▸ ht [] _ (entry?_nil t)
  · exact hnow ▸ Int.le_refl _

end Evolves

/-! ### Operations -/

variable {t t' : FileTree} {now : Timestamp} {p : Path}

/-- Putting an entry into a directory where none stands is an evolution. -/
theorem evolves_put (ht : t.WellFormed) {s : Segment} {l : Location} {m : Timestamp} {e : Entry}
    (hl : t.entry? l = some (.directory m)) (hnew : ∀ m, t.entry? (s :: l) ≠ some (.directory m))
    (he : e.modified = t.clock ∨ e.modified = now) :
    t.Evolves (t.put (s :: l) e) now {s :: l} ∅ where
  current := rfl
  clock := rfl
  stamped := by
    intro l' e' he'
    rw [entry?_put] at he'
    split at he'
    · exact .inr (Option.some.inj he' ▸ he)
    · exact .inl he'
  kept := by
    intro l' hl'
    have hne : l' ≠ s :: l := hl'
    simp [entry?_put, hne]
  directory := by
    intro l' m' hm'
    have hne : l' ≠ s :: l := fun h ↦ hnew m' (h ▸ hm')
    rw [entry?_put, if_neg fun h ↦ hne h.2]
    exact hm'
  wellFormed := by
    intro _
    have hdir {l' : Location} {m' : Timestamp} (h : t.entry? l' = some (.directory m')) :
        FileTree.entry? (t.put (s :: l) e) l' = some (.directory m') := by
      have hne : l' ≠ s :: l := fun h' ↦ hnew m' (h' ▸ h)
      rw [entry?_put, if_neg fun h ↦ hne h.2]
      exact h
    refine ⟨ht.current.imp fun m h ↦ hdir h, fun s' l' e' he' ↦ ?_⟩
    rw [entry?_put] at he'
    split at he'
    · next h =>
      obtain ⟨rfl, rfl⟩ := List.cons.inj h.2
      exact ⟨m, hdir hl⟩
    · exact (ht.parent s' l' e' he').imp fun m h ↦ hdir h

/-- Writing a file touches one location. -/
theorem evolves_write (ht : t.WellFormed) {bytes : ByteArray} {modified : Timestamp}
    (h : t.write p bytes modified = .ok t') (hm : modified = t.clock ∨ modified = now) :
    t.Evolves t' now {t.place p} ∅ ∧ t'.stat p = .ok (.file bytes modified) := by
  obtain ⟨l, hl, hnew, rfl⟩ := write_eq_ok.mp h
  obtain rfl := eq_place_of_locate hl
  obtain ⟨s, l, m, hplace, hdir⟩ := ht.exists_parent_of_locate hl hnew
  have hev := evolves_put (e := .file bytes modified) ht hdir (hplace ▸ hnew) hm
  rw [← hplace] at hev
  refine ⟨hev, stat_eq_ok.mpr ⟨?_, ?_⟩⟩
  · rw [hev.place_eq]
    exact hev.locate_eq_ok hl
  · rw [hev.place_eq, entry?_put]
    simp [hplace]

/-- Removing a file touches one location. -/
theorem evolves_remove (now : Timestamp) (h : t.remove p = .ok t') :
    t.Evolves t' now {t.place p} ∅ ∧ t'.entry? (t.place p) = none := by
  obtain ⟨l, bytes, modified, hl, hfile, rfl⟩ := remove_eq_ok.mp h
  obtain rfl := eq_place_of_locate hl
  have hne : t.place p ≠ [] := fun h ↦ by simp [h] at hfile
  have hdir {l : Location} {m : Timestamp} (h : t.entry? l = some (.directory m)) :
      FileTree.entry? (t.erase (t.place p)) l = some (.directory m) := by
    have hne : l ≠ t.place p := fun h' ↦ by simp [h', hfile] at h
    rw [entry?_erase, if_neg fun h ↦ hne h.2]
    exact h
  refine ⟨⟨⟨rfl, rfl, ?_, fun l m ↦ hdir, fun ht ↦ ⟨ht.current.imp fun m h ↦ hdir h, ?_⟩⟩, ?_⟩, ?_⟩
  · intro l hl
    have hne : l ≠ t.place p := hl
    simp [entry?_erase, hne]
  · intro s l e he
    rw [entry?_erase] at he
    split at he
    · simp at he
    · exact (ht.parent s l e he).imp fun m h ↦ hdir h
  · intro l e he
    rw [entry?_erase] at he
    split at he
    · simp at he
    · exact .inl he
  · simp [entry?_erase, hne]

/-- Making a directory adds one where nothing stood. -/
theorem evolves_makeDirectory (ht : t.WellFormed) (h : t.makeDirectory p = .ok t') :
    t.Evolves t' now ∅ {t.place p} ∧ t'.stat p = .ok (.directory t.clock) := by
  obtain ⟨l, hl, hnew, rfl⟩ := makeDirectory_eq_ok.mp h
  obtain rfl := eq_place_of_locate hl
  have hfree : ∀ m, t.entry? (t.place p) ≠ some (.directory m) := by simp [hnew]
  obtain ⟨s, l, m, hplace, hm⟩ := ht.exists_parent_of_locate hl hfree
  rw [hplace] at hfree
  have hev := evolves_put (e := .directory t.clock) ht hm hfree (.inl rfl : _ ∨ _ = now)
  rw [← hplace] at hev
  have hentry : FileTree.entry? (t.put (t.place p) (.directory t.clock)) (t.place p) =
      some (.directory t.clock) := by
    simp [entry?_put, hplace]
  refine ⟨⟨⟨rfl, rfl, ?_, hev.directory, hev.wellFormed⟩, hev.stamped⟩, stat_eq_ok.mpr ⟨?_, ?_⟩⟩
  · intro l' _
    by_cases hl' : l' = t.place p
    · exact .inr ⟨hl' ▸ hnew, hl', hl' ▸ hentry⟩
    · exact .inl ((hev.kept l' hl').resolve_right (by simp))
  · rw [hev.place_eq]
    exact hev.locate_eq_ok hl
  · rw [hev.place_eq]
    exact hentry

theorem path_of_makeDirectory_error {e : FileError} (h : t.makeDirectory p = .error e) :
    e.path = p := by
  unfold makeDirectory at h
  split at h
  · rw [← Except.error.inj h]
  · split at h
    · rw [← Except.error.inj h]
    · simp at h

theorem isDirectory_of_acceptExisting {e : FileError} (h : t.acceptExisting e = .ok ()) :
    ∃ m, t.stat e.path = .ok (.directory m) := by
  unfold acceptExisting at h
  split at h
  · simp at h
  · obtain ⟨b, hb, h⟩ := bind_eq_ok.mp h
    cases b with
    | false => simp at h
    | true => exact isDirectory_eq_true.mp hb

/-- The directories on the way to a location, and the location. -/
def upTo (l : Location) : Set Location := { l' | l' <:+ l }

/-- Where the beginnings of a path lead. -/
def onWay (t : FileTree) (p : Path) : Set Location := { l | ∃ ss, ss <+: p.segments ∧ l = t.place ⟨p.anchor, ss⟩ }

theorem onWay_eq {u : FileTree} (h : u.current = t.current) (p : Path) : u.onWay p = t.onWay p := by
  unfold onWay
  simp only [place_congr h]

/-- The beginnings of a path without double dots lead to the directories on its way. -/
theorem onWay_subset (t : FileTree) (hs : p.IsStraight) : t.onWay p ⊆ upTo (t.place p) := by
  rintro l ⟨ss, hss, rfl⟩
  have hstraight : (⟨p.anchor, ss⟩ : Path).IsStraight := fun s hmem ↦ hs s (hss.subset hmem)
  obtain ⟨rest, hrest⟩ := hss
  refine ⟨rest.reverse, ?_⟩
  rw [place_of_isStraight t hs, place_of_isStraight t hstraight, ← hrest]
  simp [Path.isAbsolute]

/-- Making directories on the way to a path is an evolution; if it succeeds, there is a directory at the
end. -/
theorem evolves_makeDirectories (ht : t.WellFormed) (now : Timestamp) (a : Anchor) (ss : List Segment) :
    t.Evolves (t.makeDirectories a ss).1 now ∅ (t.onWay ⟨a, ss.reverse⟩) ∧
      ((t.makeDirectories a ss).2 = .ok () →
        ∃ m, (t.makeDirectories a ss).1.stat ⟨a, ss.reverse⟩ = .ok (.directory m)) := by
  have hmake {t t' : FileTree} (ss : List Segment) (ht : t.WellFormed)
      (h : t.makeDirectory ⟨a, ss.reverse⟩ = .ok t') :
      t.Evolves t' now ∅ (t.onWay ⟨a, ss.reverse⟩) ∧
        ∃ m, t'.stat ⟨a, ss.reverse⟩ = .ok (.directory m) := by
    obtain ⟨hev, hstat⟩ := evolves_makeDirectory ht h
    refine ⟨hev.mono (Set.Subset.refl _) ?_, _, hstat⟩
    rintro l rfl
    exact ⟨ss.reverse, List.prefix_rfl, rfl⟩
  have haccept {t : FileTree} (ss : List Segment) {e : FileError}
      (h : t.makeDirectory ⟨a, ss.reverse⟩ = .error e) (hok : t.acceptExisting e = .ok ()) :
      ∃ m, t.stat ⟨a, ss.reverse⟩ = .ok (.directory m) :=
    path_of_makeDirectory_error h ▸ isDirectory_of_acceptExisting hok
  induction ss generalizing t with
  | nil =>
    rw [makeDirectories]
    cases h : t.makeDirectory ⟨a, []⟩ with
    | ok t' => exact (hmake [] ht h).imp_right fun hd _ ↦ hd
    | error e =>
      by_cases hn : e.refusal = .notFound
      · simp only [hn, if_true]
        exact ⟨Evolves.refl t _ _ _, fun hok ↦ by simp at hok⟩
      · simp only [hn, if_false]
        exact ⟨Evolves.refl t _ _ _, haccept [] h⟩
  | cons s ss ih =>
    rw [makeDirectories]
    cases h : t.makeDirectory ⟨a, (s :: ss).reverse⟩ with
    | ok t' => exact (hmake (s :: ss) ht h).imp_right fun hd _ ↦ hd
    | error e =>
      by_cases hn : e.refusal = .notFound
      · simp only [hn, if_true]
        have hway : t.onWay ⟨a, ss.reverse⟩ ⊆ t.onWay ⟨a, (s :: ss).reverse⟩ := by
          rintro l ⟨ss', hss', rfl⟩
          refine ⟨ss', hss'.trans ?_, rfl⟩
          rw [List.reverse_cons]
          exact List.prefix_append ..
        obtain ⟨hev, -⟩ := ih ht
        have hev := hev.mono (Set.Subset.refl _) hway
        cases hbelow : t.makeDirectories a ss with
        | mk t₁ r =>
          rw [hbelow] at hev
          cases r with
          | error e' => exact ⟨hev, by simp⟩
          | ok u =>
            dsimp only
            cases h₁ : t₁.makeDirectory ⟨a, (s :: ss).reverse⟩ with
            | ok t₂ =>
              obtain ⟨hev₁, hd⟩ := hmake (s :: ss) (hev.wellFormed ht) h₁
              rw [onWay_eq hev.current] at hev₁
              exact ⟨hev.trans hev₁, fun _ ↦ hd⟩
            | error e' =>
              dsimp only
              by_cases hn' : e'.refusal = .notFound
              · rw [if_pos hn']
                exact ⟨hev, fun hok ↦ by simp at hok⟩
              · rw [if_neg hn']
                exact ⟨hev, haccept (s :: ss) h₁⟩
      · simp only [hn, if_false]
        exact ⟨Evolves.refl t _ _ _, haccept (s :: ss) h⟩

/-- Seeing to a directory makes some of those on the way, also where it fails; if it succeeds, there is a
directory. -/
theorem evolves_ensureDirectory_fst (ht : t.WellFormed) (now : Timestamp) (p : Path) :
    t.Evolves (t.ensureDirectory p).1 now ∅ (t.onWay p) ∧
      ((t.ensureDirectory p).2 = .ok () →
        ∃ m, (t.ensureDirectory p).1.stat p = .ok (.directory m)) := by
  have hmake := evolves_makeDirectories ht now p.anchor p.segments.reverse
  rwa [List.reverse_reverse] at hmake

/-- Seeing to a directory makes those on the way that are missing. -/
theorem evolves_ensureDirectory (ht : t.WellFormed) (now : Timestamp) (hs : p.IsStraight)
    (h : t.ensureDirectory p = (t', .ok ())) :
    t.Evolves t' now ∅ (upTo (t.place p)) ∧ ∃ m, t'.stat p = .ok (.directory m) := by
  have hmake := evolves_ensureDirectory_fst ht now p
  rw [h] at hmake
  exact ⟨hmake.1.mono (Set.Subset.refl _) (t.onWay_subset hs), hmake.2 rfl⟩

/-- A directory that is there need not be made. -/
theorem ensureDirectory_of_directory {m : Timestamp} (h : t.stat p = .ok (.directory m)) :
    t.ensureDirectory p = (t, .ok ()) := by
  obtain ⟨hl, he⟩ := stat_eq_ok.mp h
  have hmake : t.makeDirectory p = .error ⟨.alreadyExists, p⟩ := by
    simp [makeDirectory, hl, he]
  have haccept : t.acceptExisting ⟨.alreadyExists, p⟩ = .ok () := by
    simp [acceptExisting, isDirectory_eq_true.mpr ⟨m, h⟩]
  obtain ⟨a, ss⟩ := p
  unfold ensureDirectory
  dsimp only
  rw [← List.reverse_reverse ss] at hmake haccept
  cases hss : ss.reverse with
  | nil =>
    rw [hss] at hmake haccept
    simp only [List.reverse_nil] at hmake haccept
    simp [makeDirectories, hmake, haccept]
  | cons s ss' =>
    rw [hss] at hmake haccept
    simp only [makeDirectories, hmake, haccept]
    simp

end ModuleBuild.FileTree
