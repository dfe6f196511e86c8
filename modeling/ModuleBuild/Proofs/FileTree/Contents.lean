import ModuleBuild.Proofs.FileTree.Shape

/-!
# What file trees hold

Two file trees have the same contents if they differ at most in when their entries were changed
(`SameContents`). Then the same paths lead to the same places, and every operation does the same to both
trees: look-ups find the same, and the trees that changes leave have the same contents again. An operation
at one path needs less: that there the trees are alike (`AlikeAt`). Then it does the same to both, and they
hold the same afterwards wherever they did before. Where paths lead hangs on files and directories alone, whatever
the files hold (`SameShape`).
-/

namespace ModuleBuild

/-- The bytes of a file; a directory has none. -/
def Entry.bytes? : Entry → Option ByteArray
  | .file bytes _ => some bytes
  | .directory _ => none

namespace FileTree

/-- The trees hold the same at a location; only the time of change may differ. -/
def AgreeAt (t u : FileTree) (l : Location) : Prop :=
  ( u.entry? l).map Entry.bytes? = ( t.entry? l).map Entry.bytes?

/-- The trees hold the same at the same places; only times of change may differ. -/
structure SameContents (t u : FileTree) : Prop where
  current : u.current = t.current
  clock : u.clock = t.clock
  entry : ∀ l, t.AgreeAt u l

/-- The trees have files and directories at the same places, whatever the files hold. -/
structure SameShape (t u : FileTree) : Prop where
  current : u.current = t.current
  entry : ∀ l, ( u.entry? l).map Entry.isFile = ( t.entry? l).map Entry.isFile

/-- The trees hold the same but for one file. -/
structure EditedAt (t u : FileTree) (l : Location) (bytes bytes' : ByteArray) : Prop where
  current : u.current = t.current
  file : ∃ m, t.entry? l = some (.file bytes m)
  edited : ∃ m, u.entry? l = some (.file bytes' m)
  kept : ∀ l' ≠ l, t.AgreeAt u l'

variable {t t' u : FileTree} {p : Path} {l : Location}

namespace AgreeAt

/-- Where the trees hold the same, both have a file, or a directory, or nothing. -/
theorem isFile (h : t.AgreeAt u l) : ( u.entry? l).map Entry.isFile = ( t.entry? l).map Entry.isFile := by
  have hkind (e : Entry) : e.isFile = e.bytes?.isSome := by cases e <;> rfl
  have hmap := congrArg (Option.map Option.isSome) h
  simpa only [Option.map_map, Function.comp_def, ← hkind] using hmap

theorem symm (h : t.AgreeAt u l) : u.AgreeAt t l := Eq.symm h

theorem trans {v : FileTree} (h : t.AgreeAt u l) (h' : u.AgreeAt v l) : t.AgreeAt v l := Eq.trans h' h

theorem of_eq (h : u.entry? l = t.entry? l) : t.AgreeAt u l := by rw [AgreeAt, h]

theorem entry?_eq_none (h : t.AgreeAt u l) (he : t.entry? l = none) : u.entry? l = none := by
  rw [AgreeAt, he] at h
  simpa using h

theorem entry?_eq_directory (h : t.AgreeAt u l) {m : Timestamp}
    (he : t.entry? l = some (.directory m)) : ∃ m', u.entry? l = some (.directory m') := by
  rw [AgreeAt, he] at h
  obtain ⟨e, he', hbytes⟩ := Option.map_eq_some_iff.mp h
  cases e with
  | file bytes m' => simp [Entry.bytes?] at hbytes
  | directory m' => exact ⟨m', he'⟩

theorem entry?_eq_file (h : t.AgreeAt u l) {bytes : ByteArray} {m : Timestamp}
    (he : t.entry? l = some (.file bytes m)) : ∃ m', u.entry? l = some (.file bytes m') := by
  rw [AgreeAt, he] at h
  obtain ⟨e, he', hbytes⟩ := Option.map_eq_some_iff.mp h
  cases e with
  | file bytes' m' =>
    obtain rfl := Option.some.inj hbytes
    exact ⟨m', he'⟩
  | directory m' => simp [Entry.bytes?] at hbytes

theorem of_file {bytes : ByteArray} {m m' : Timestamp} (he : t.entry? l = some (.file bytes m))
    (he' : u.entry? l = some (.file bytes m')) : t.AgreeAt u l := by
  rw [AgreeAt, he, he']
  rfl

theorem of_directory {m m' : Timestamp} (he : t.entry? l = some (.directory m))
    (he' : u.entry? l = some (.directory m')) : t.AgreeAt u l := by
  rw [AgreeAt, he, he']
  rfl

/-- Putting something leaves the same wherever the same was held. -/
theorem put (h : t.AgreeAt u l) {l' : Location} {e e' : Entry} (he : e'.bytes? = e.bytes?) :
    (t.put l' e).AgreeAt (u.put l' e') l := by
  rw [AgreeAt, entry?_put, entry?_put]
  split
  · simp [he]
  · exact h

theorem erase (h : t.AgreeAt u l) (l' : Location) : (t.erase l').AgreeAt (u.erase l') l := by
  rw [AgreeAt, entry?_erase, entry?_erase]
  split
  · rfl
  · exact h

end AgreeAt

/-- A path leads to the same place in both trees, and they hold the same there. -/
def AlikeAt (t u : FileTree) (p : Path) : Prop :=
  u.locate p = t.locate p ∧ ∀ l, t.locate p = .ok l → t.AgreeAt u l

namespace AlikeAt

theorem symm (h : t.AlikeAt u p) : u.AlikeAt t p :=
  ⟨h.1.symm, fun l hl ↦ (h.2 l (h.1 ▸ hl)).symm⟩

/-- The same is found, or it is refused alike. -/
theorem stat_bytes? (h : t.AlikeAt u p) : (u.stat p).map Entry.bytes? = (t.stat p).map Entry.bytes? := by
  unfold stat
  rw [h.1]
  cases hlocate : t.locate p with
  | error r => rfl
  | ok l =>
    have hl := h.2 l hlocate
    rw [ok_bind, ok_bind]
    cases he : t.entry? l with
    | none => rw [hl.entry?_eq_none he]
    | some e =>
      rw [AgreeAt, he] at hl
      obtain ⟨e', he', hbytes⟩ := Option.map_eq_some_iff.mp hl
      rw [he']
      exact congrArg Except.ok hbytes

theorem read_eq (h : t.AlikeAt u p) : u.read p = t.read p := by
  have hstat := h.stat_bytes?
  unfold read
  revert hstat
  cases u.stat p with
  | error r => cases t.stat p <;> simp +contextual [Except.map]
  | ok e =>
    cases t.stat p with
    | error r => simp [Except.map]
    | ok e' => cases e <;> cases e' <;> simp [Except.map, Entry.bytes?]

theorem pathExists_eq (h : t.AlikeAt u p) : u.pathExists p = t.pathExists p := by
  have hstat := h.stat_bytes?
  unfold pathExists probe
  revert hstat
  cases u.stat p with
  | error r => cases t.stat p <;> simp +contextual [Except.map]
  | ok e => cases t.stat p <;> simp [Except.map]

theorem isDirectory_eq (h : t.AlikeAt u p) : u.isDirectory p = t.isDirectory p := by
  have hstat := h.stat_bytes?
  unfold isDirectory probe
  revert hstat
  cases u.stat p with
  | error r => cases t.stat p <;> simp +contextual [Except.map]
  | ok e =>
    cases t.stat p with
    | error r => simp [Except.map]
    | ok e' => cases e <;> cases e' <;> simp [Except.map, Entry.bytes?, Entry.isFile]

/-- What can be written in one tree can be written in the other. -/
theorem write (h : t.AlikeAt u p) {bytes : ByteArray} {m : Timestamp} (hw : t.write p bytes m = .ok t')
    (m' : Timestamp) :
    ∃ u', u.write p bytes m' = .ok u' ∧ ∀ l, t.AgreeAt u l → t'.AgreeAt u' l := by
  obtain ⟨l, hl, hnew, rfl⟩ := write_eq_ok.mp hw
  have hnew' : ∀ m, u.entry? l ≠ some (.directory m) := by
    intro m he
    obtain ⟨m', he'⟩ := (h.2 l hl).symm.entry?_eq_directory he
    exact hnew m' he'
  exact ⟨_, write_eq_ok.mpr ⟨l, h.1.trans hl, hnew', rfl⟩, fun l' hl' ↦ hl'.put rfl⟩

theorem remove (h : t.AlikeAt u p) (hr : t.remove p = .ok t') :
    ∃ u', u.remove p = .ok u' ∧ ∀ l, t.AgreeAt u l → t'.AgreeAt u' l := by
  obtain ⟨l, bytes, m, hl, he, rfl⟩ := remove_eq_ok.mp hr
  obtain ⟨m', he'⟩ := (h.2 l hl).entry?_eq_file he
  exact ⟨_, remove_eq_ok.mpr ⟨l, bytes, m', h.1.trans hl, he', rfl⟩, fun l' hl' ↦ hl'.erase l⟩

theorem makeDirectory (h : t.AlikeAt u p) (hm : t.makeDirectory p = .ok t') :
    ∃ u', u.makeDirectory p = .ok u' ∧ ∀ l, t.AgreeAt u l → t'.AgreeAt u' l := by
  obtain ⟨l, hl, he, rfl⟩ := FileTree.makeDirectory_eq_ok.mp hm
  exact ⟨_, FileTree.makeDirectory_eq_ok.mpr ⟨l, h.1.trans hl, (h.2 l hl).entry?_eq_none he, rfl⟩,
    fun l' hl' ↦ hl'.put rfl⟩

end AlikeAt

namespace SameShape

theorem enter_eq (h : t.SameShape u) (l : Location) (s : Segment) : u.enter l s = t.enter l s := by
  have hl := h.entry l
  unfold enter
  cases he : t.entry? l with
  | none =>
    rw [he] at hl
    rw [Option.map_eq_none_iff.mp hl]
  | some e =>
    rw [he] at hl
    obtain ⟨e', he', hkind⟩ := Option.map_eq_some_iff.mp hl
    rw [he']
    cases e <;> cases e' <;> simp_all [Entry.isFile]

theorem enterAll_eq (h : t.SameShape u) (l : Location) (ss : List Segment) : u.enterAll l ss = t.enterAll l ss := by
  induction ss generalizing l with
  | nil => rfl
  | cons s ss ih =>
    rw [enterAll, enterAll, h.enter_eq]
    exact bind_congr fun l' ↦ ih l'

/-- Paths lead to the same places, or are refused alike. -/
theorem locate_eq (h : t.SameShape u) (p : Path) : u.locate p = t.locate p := by
  unfold locate
  rw [h.current]
  simp only [h.enterAll_eq]

/-- Trees of one shape are alike at a path where they hold the same. -/
theorem alikeAt (h : t.SameShape u) (hp : t.AgreeAt u (t.place p)) : t.AlikeAt u p := by
  refine ⟨h.locate_eq p, fun l hl ↦ ?_⟩
  rwa [eq_place_of_locate hl]

/-- Files and directories are found where they are found. -/
theorem probe_isFile (h : t.SameShape u) (p : Path) :
    (u.probe p).map (Option.map Entry.isFile) = (t.probe p).map (Option.map Entry.isFile) := by
  have hstat : (u.stat p).map Entry.isFile = (t.stat p).map Entry.isFile := by
    unfold stat
    rw [h.locate_eq]
    cases t.locate p with
    | error r => rfl
    | ok l =>
      have hl := h.entry l
      rw [ok_bind, ok_bind]
      cases he : u.entry? l <;> cases he' : t.entry? l <;> simp_all [Except.map]
  unfold probe
  revert hstat
  cases u.stat p with
  | error r => cases t.stat p <;> simp +contextual [Except.map]
  | ok e => cases t.stat p <;> simp [Except.map]

theorem isFile_eq (h : t.SameShape u) (p : Path) : u.isFile p = t.isFile p := by
  have hprobe (t : FileTree) : t.isFile p = ((t.probe p).map (Option.map Entry.isFile)).map (Option.any id) := by
    unfold isFile
    cases t.probe p with
    | error e => rfl
    | ok e => cases e <;> rfl
  rw [hprobe, hprobe, h.probe_isFile]

theorem isDirectory_eq (h : t.SameShape u) (p : Path) : u.isDirectory p = t.isDirectory p := by
  have hprobe (t : FileTree) : t.isDirectory p = ((t.probe p).map (Option.map Entry.isFile)).map (Option.any not) := by
    unfold isDirectory
    cases t.probe p with
    | error e => rfl
    | ok e => cases e <;> rfl
  rw [hprobe, hprobe, h.probe_isFile]

end SameShape

namespace EditedAt

variable {bytes bytes' : ByteArray}

/-- A file that is put in the place of another edits it. -/
theorem put {m : Timestamp} (h : t.entry? l = some (.file bytes m)) (m' : Timestamp) :
    t.EditedAt (t.put l (.file bytes' m')) l bytes bytes' where
  current := rfl
  file := ⟨m, h⟩
  edited := by
    have hl : l ≠ [] := fun hnil ↦ by simp [hnil] at h
    exact ⟨m', by rw [entry?_put, if_pos ⟨hl, rfl⟩]⟩
  kept := by
    intro l' hl'
    apply AgreeAt.of_eq
    rw [entry?_put, if_neg fun hput ↦ hl' hput.2]

theorem sameShape (h : t.EditedAt u l bytes bytes') : t.SameShape u where
  current := h.current
  entry := by
    intro l'
    by_cases hl : l' = l
    · obtain ⟨m, hfile⟩ := h.file
      obtain ⟨m', hedited⟩ := h.edited
      rw [hl, hfile, hedited]
      rfl
    · exact (h.kept l' hl).isFile

/-- Elsewhere the trees are alike. -/
theorem alikeAt (h : t.EditedAt u l bytes bytes') (hp : t.place p ≠ l) : t.AlikeAt u p :=
  h.sameShape.alikeAt (h.kept _ hp)

/-- The bytes that are read at a path to the file. -/
theorem read_eq (h : t.EditedAt u l bytes bytes') (hp : t.place p = l) (hfile : t.isFile p = .ok true) :
    t.read p = .ok bytes ∧ u.read p = .ok bytes' := by
  have hread {t : FileTree} {bytes : ByteArray} (hl : ∃ m, t.entry? l = some (.file bytes m)) (hp : t.place p = l)
      (hfile : t.isFile p = .ok true) : t.read p = .ok bytes := by
    obtain ⟨bytes₀, m₀, hstat⟩ := isFile_eq_true.mp hfile
    obtain ⟨m, hentry⟩ := hl
    have hsame := (stat_eq_ok.mp hstat).2
    rw [hp, hentry] at hsame
    obtain ⟨rfl, rfl⟩ : bytes = bytes₀ ∧ m = m₀ := by simpa using hsame
    exact read_eq_ok.mpr ⟨m, hstat⟩
  exact ⟨hread h.file hp hfile, hread h.edited ((place_congr h.current p).trans hp) ((h.sameShape.isFile_eq p).trans hfile)⟩

end EditedAt

namespace SameContents

theorem refl (t : FileTree) : t.SameContents t := ⟨rfl, rfl, fun _ ↦ rfl⟩

theorem symm (h : t.SameContents u) : u.SameContents t :=
  ⟨h.current.symm, h.clock.symm, fun l ↦ (h.entry l).symm⟩

theorem trans {v : FileTree} (h : t.SameContents u) (h' : u.SameContents v) : t.SameContents v :=
  ⟨h'.current.trans h.current, h'.clock.trans h.clock, fun l ↦ (h.entry l).trans (h'.entry l)⟩

/-! ### Look-ups -/

theorem place_eq (h : t.SameContents u) (p : Path) : u.place p = t.place p := place_congr h.current p

theorem sameShape (h : t.SameContents u) : t.SameShape u := ⟨h.current, fun l ↦ (h.entry l).isFile⟩

/-- Paths lead to the same places, or are refused alike. -/
theorem locate_eq (h : t.SameContents u) (p : Path) : u.locate p = t.locate p := h.sameShape.locate_eq p

/-- The same entry is found at a path where the same entry stands. -/
theorem stat_eq (h : t.SameContents u) (he : u.entry? (t.place p) = t.entry? (t.place p)) :
    u.stat p = t.stat p := by
  unfold stat
  rw [h.locate_eq]
  cases hl : t.locate p with
  | error r => rfl
  | ok l =>
    obtain rfl := eq_place_of_locate hl
    rw [ok_bind, ok_bind, he]

/-- Everywhere the trees are alike. -/
theorem alikeAt (h : t.SameContents u) (p : Path) : t.AlikeAt u p := ⟨h.locate_eq p, fun l _ ↦ h.entry l⟩

/-! ### Changes -/

theorem write (h : t.SameContents u) {bytes : ByteArray} {m : Timestamp}
    (hw : t.write p bytes m = .ok t') (m' : Timestamp) :
    ∃ u', u.write p bytes m' = .ok u' ∧ t'.SameContents u' := by
  obtain ⟨u', hw', hagree⟩ := (h.alikeAt p).write hw m'
  obtain ⟨l, -, -, rfl⟩ := write_eq_ok.mp hw
  obtain ⟨l', -, -, rfl⟩ := write_eq_ok.mp hw'
  exact ⟨_, hw', h.current, h.clock, fun l ↦ hagree l (h.entry l)⟩

theorem write_eq_error (h : t.SameContents u) {bytes : ByteArray} {m : Timestamp} {e : FileError}
    (hw : t.write p bytes m = .error e) (m' : Timestamp) : u.write p bytes m' = .error e := by
  cases hw' : u.write p bytes m' with
  | ok u' =>
    obtain ⟨t', ht', -⟩ := h.symm.write hw' m
    simp [hw] at ht'
  | error e' =>
    unfold FileTree.write at hw hw'
    rw [h.locate_eq] at hw'
    cases hl : t.locate p with
    | error r =>
      rw [hl] at hw hw'
      exact hw'.symm.trans hw
    | ok l =>
      rw [hl] at hw hw'
      dsimp only at hw hw'
      split at hw
      · split at hw'
        · exact hw'.symm.trans hw
        · simp at hw'
      · simp at hw

theorem remove (h : t.SameContents u) (hr : t.remove p = .ok t') :
    ∃ u', u.remove p = .ok u' ∧ t'.SameContents u' := by
  obtain ⟨u', hr', hagree⟩ := (h.alikeAt p).remove hr
  obtain ⟨l, -, -, -, -, rfl⟩ := remove_eq_ok.mp hr
  obtain ⟨l', -, -, -, -, rfl⟩ := remove_eq_ok.mp hr'
  exact ⟨_, hr', h.current, h.clock, fun l ↦ hagree l (h.entry l)⟩

theorem makeDirectory_eq_ok (h : t.SameContents u) (hm : t.makeDirectory p = .ok t') :
    ∃ u', u.makeDirectory p = .ok u' ∧ t'.SameContents u' := by
  obtain ⟨u', hm', hagree⟩ := (h.alikeAt p).makeDirectory hm
  obtain ⟨l, -, -, rfl⟩ := FileTree.makeDirectory_eq_ok.mp hm
  obtain ⟨l', -, -, rfl⟩ := FileTree.makeDirectory_eq_ok.mp hm'
  exact ⟨_, hm', h.current, h.clock, fun l ↦ hagree l (h.entry l)⟩

theorem makeDirectory_eq_error (h : t.SameContents u) {e : FileError}
    (hm : t.makeDirectory p = .error e) : u.makeDirectory p = .error e := by
  cases hm' : u.makeDirectory p with
  | ok u' =>
    obtain ⟨t', ht', -⟩ := h.symm.makeDirectory_eq_ok hm'
    simp [hm] at ht'
  | error e' =>
    unfold makeDirectory at hm hm'
    rw [h.locate_eq] at hm'
    cases hl : t.locate p with
    | error r =>
      rw [hl] at hm hm'
      exact hm'.symm.trans hm
    | ok l =>
      rw [hl] at hm hm'
      dsimp only at hm hm'
      split at hm
      · split at hm'
        · exact hm'.symm.trans hm
        · simp at hm'
      · simp at hm

theorem acceptExisting_eq (h : t.SameContents u) (e : FileError) :
    u.acceptExisting e = t.acceptExisting e := by
  rw [acceptExisting, acceptExisting, (h.alikeAt _).isDirectory_eq]

theorem makeDirectories (h : t.SameContents u) (a : Anchor) (ss : List Segment) :
    (u.makeDirectories a ss).2 = (t.makeDirectories a ss).2 ∧
      (t.makeDirectories a ss).1.SameContents (u.makeDirectories a ss).1 := by
  induction ss generalizing t u with
  | nil =>
    simp only [FileTree.makeDirectories]
    cases hm : t.makeDirectory ⟨a, []⟩ with
    | ok t' =>
      obtain ⟨u', hm', h'⟩ := h.makeDirectory_eq_ok hm
      rw [hm']
      exact ⟨rfl, h'⟩
    | error e =>
      rw [h.makeDirectory_eq_error hm]
      dsimp only
      split
      · exact ⟨rfl, h⟩
      · exact ⟨h.acceptExisting_eq e, h⟩
  | cons s ss ih =>
    simp only [FileTree.makeDirectories]
    cases hm : t.makeDirectory ⟨a, (s :: ss).reverse⟩ with
    | ok t' =>
      obtain ⟨u', hm', h'⟩ := h.makeDirectory_eq_ok hm
      rw [hm']
      exact ⟨rfl, h'⟩
    | error e =>
      rw [h.makeDirectory_eq_error hm]
      dsimp only
      split
      · obtain ⟨hanswer, hbelow⟩ := ih h
        cases ht : t.makeDirectories a ss with
        | mk t₁ answer =>
          cases hu : u.makeDirectories a ss with
          | mk u₁ answer' =>
            rw [ht, hu] at hanswer hbelow
            obtain rfl : answer' = answer := hanswer
            cases answer' with
            | error e' => exact ⟨rfl, hbelow⟩
            | ok _ =>
              dsimp only
              cases hm₁ : t₁.makeDirectory ⟨a, (s :: ss).reverse⟩ with
              | ok t₂ =>
                obtain ⟨u₂, hm₂, h₂⟩ := hbelow.makeDirectory_eq_ok hm₁
                rw [hm₂]
                exact ⟨rfl, h₂⟩
              | error e' =>
                rw [hbelow.makeDirectory_eq_error hm₁]
                dsimp only
                split
                · exact ⟨rfl, hbelow⟩
                · exact ⟨hbelow.acceptExisting_eq e', hbelow⟩
      · exact ⟨h.acceptExisting_eq e, h⟩

/-- Seeing to a directory does the same to both trees. -/
theorem ensureDirectory (h : t.SameContents u) (hd : t.ensureDirectory p = (t', .ok ())) :
    ∃ u', u.ensureDirectory p = (u', .ok ()) ∧ t'.SameContents u' := by
  obtain ⟨hanswer, hcontents⟩ := h.makeDirectories p.anchor p.segments.reverse
  unfold FileTree.ensureDirectory at hd ⊢
  rw [hd] at hanswer hcontents
  exact ⟨_, Prod.ext rfl hanswer, hcontents⟩

end SameContents

end FileTree

end ModuleBuild
