import ModuleBuild.FileTree.Change
import ModuleBuild.Proofs.FileTree.Lookup
import ModuleBuild.Proofs.Table

/-!
# The shape of file trees

In a file tree as file systems keep them every entry stands in a directory, and so does the current
directory (`WellFormed`). There a path without double dots is found exactly if something stands at its
location, whatever lies on the way (`stat_eq_ok_of_isStraight`).
-/

namespace ModuleBuild

namespace Path

/-- No segment of the path is a double dot. -/
def IsStraight (p : Path) : Prop := ∀ s ∈ p.segments, s ≠ .up

instance (p : Path) : Decidable p.IsStraight := by
  unfold IsStraight
  infer_instance

/-- The path and the names in it are not too long, and no name holds a null character. -/
structure IsNameable (p : Path) : Prop where
  noNull : '\x00' ∉ (toString p).toList
  size_lt : (toString p).utf8ByteSize < FileTree.maxPath
  names_le : ∀ s ∈ p.segments, s = .up ∨ s.text.utf8ByteSize ≤ FileTree.maxName

end Path

namespace FileTree

variable {t : FileTree} {p : Path} {l : Location}

/-- Where a path without double dots leads. -/
theorem place_of_isStraight (t : FileTree) (h : p.IsStraight) :
    t.place p = p.segments.reverse ++ if p.isAbsolute then [] else t.current :=
  Location.foldl_step_of_ne_up h

/-- Where the parent of a path leads. -/
theorem place_parent {p : Path} (t : FileTree) (hs : p.IsStraight) (hp : p.segments ≠ []) :
    t.place p.parent = (t.place p).tail := by
  have hs' : p.parent.IsStraight := fun s h ↦ hs s (List.dropLast_subset _ h)
  obtain ⟨ss, s, hsegments⟩ := List.eq_nil_or_concat p.segments |>.resolve_left hp
  rw [place_of_isStraight t hs, place_of_isStraight t hs', Path.parent, hsegments,
    List.concat_eq_append, List.dropLast_concat, List.reverse_append]
  rfl

/-- Every entry stands in a directory, and the current directory is one. -/
structure WellFormed (t : FileTree) : Prop where
  current : ∃ m, t.entry? t.current = some (.directory m)
  parent : ∀ s l e, t.entry? (s :: l) = some e → ∃ m, t.entry? l = some (.directory m)

@[simp] theorem entry?_nil (t : FileTree) : t.entry? [] = some (.directory t.clock) := rfl

/-- Except for the root, what stands at a location is one of the nodes. -/
theorem mem_keys_of_entry {e : Entry} (hl : l ≠ []) (h : t.entry? l = some e) : l ∈ t.nodes.keys := by
  rw [ entry?, if_neg hl] at h
  exact Table.mem_keys_of_find? h

theorem mem_keys_of_file {bytes : ByteArray} {m : Timestamp} (h : t.entry? l = some (.file bytes m)) :
    l ∈ t.nodes.keys :=
  mem_keys_of_entry (fun hnil ↦ by simp [hnil] at h) h

/-- Above an entry there are only directories. -/
theorem WellFormed.directory_of_append (h : t.WellFormed) {ss : Location} {e : Entry} (hss : ss ≠ [])
    (he : t.entry? (ss ++ l) = some e) : ∃ m, t.entry? l = some (.directory m) := by
  induction ss generalizing e with
  | nil => exact absurd rfl hss
  | cons s ss ih =>
    obtain ⟨m, hm⟩ := h.parent s (ss ++ l) e he
    cases ss with
    | nil => exact ⟨m, hm⟩
    | cons s' ss => exact ih (by simp) hm

/-- Names can be followed down to an entry. -/
theorem WellFormed.enterAll_eq_ok (h : t.WellFormed) {ss : List Segment} {e : Entry}
    (hup : ∀ s ∈ ss, s ≠ .up) (hsize : ∀ s ∈ ss, s = .up ∨ s.text.utf8ByteSize ≤ maxName)
    (he : t.entry? (ss.reverse ++ l) = some e) : t.enterAll l ss = .ok (ss.reverse ++ l) := by
  induction ss generalizing l with
  | nil => rfl
  | cons s ss ih =>
    have hne := hup s List.mem_cons_self
    rw [List.reverse_cons, List.append_assoc, List.singleton_append] at he ⊢
    have hdir : ∃ m, t.entry? l = some (.directory m) := by
      rw [← List.singleton_append, ← List.append_assoc] at he
      exact h.directory_of_append (by simp) he
    have henter : t.enter l s = .ok (s :: l) :=
      enter_eq_ok.mpr ⟨hdir, hsize s List.mem_cons_self, by rw [Location.step, if_neg hne]⟩
    rw [enterAll, henter, ok_bind]
    exact ih (fun s' hs' ↦ hup s' (List.mem_cons_of_mem _ hs'))
      (fun s' hs' ↦ hsize s' (List.mem_cons_of_mem _ hs')) he

/-- Where segments lead from a directory there is a directory, or a name in one. -/
theorem WellFormed.exists_parent_of_enterAll (h : t.WellFormed) {ss : List Segment} {l' : Location}
    (hl : ∃ m, t.entry? l = some (.directory m)) (he : t.enterAll l ss = .ok l')
    (hfree : ∀ m, t.entry? l' ≠ some (.directory m)) :
    ∃ s l₁ m, l' = s :: l₁ ∧ t.entry? l₁ = some (.directory m) := by
  induction ss generalizing l with
  | nil =>
    obtain rfl := Except.ok.inj he
    obtain ⟨m, hm⟩ := hl
    exact absurd hm (hfree m)
  | cons s ss ih =>
    obtain ⟨l₁, hfirst, hrest⟩ := bind_eq_ok.mp he
    obtain ⟨⟨m, hm⟩, -, hstep⟩ := enter_eq_ok.mp hfirst
    cases ss with
    | cons s' ss =>
      -- what is followed further is a directory
      obtain ⟨l₂, hsecond, -⟩ := bind_eq_ok.mp hrest
      exact ih (enter_eq_ok.mp hsecond).1 hrest
    | nil =>
      obtain rfl := Except.ok.inj hrest
      by_cases hup : s = .up
      · -- above a directory there is a directory
        rw [hstep, Location.step, if_pos hup] at hfree
        cases l with
        | nil => exact absurd (entry?_nil t) (hfree _)
        | cons s' l =>
          obtain ⟨m', hm'⟩ := h.parent s' l _ hm
          exact absurd hm' (hfree m')
      · rw [hstep, Location.step, if_neg hup]
        exact ⟨s, l, m, rfl, hm⟩

/-- Where a path leads there is a directory, or a name in one. -/
theorem WellFormed.exists_parent_of_locate (h : t.WellFormed) (hl : t.locate p = .ok l)
    (hfree : ∀ m, t.entry? l ≠ some (.directory m)) :
    ∃ s l' m, l = s :: l' ∧ t.entry? l' = some (.directory m) := by
  refine h.exists_parent_of_enterAll ?_ (locate_eq_ok.mp hl).2.2 hfree
  cases p.isAbsolute with
  | true => exact ⟨_, entry?_nil t⟩
  | false => exact h.current

/-- Where directories stay, a way that is open stays open. -/
theorem enterAll_of_directory {t' : FileTree} (hdir : ∀ l m, t.entry? l = some (.directory m) →
    ∃ m', t'.entry? l = some (.directory m')) {ss : List Segment} {l' : Location}
    (h : t.enterAll l ss = .ok l') : t'.enterAll l ss = .ok l' := by
  induction ss generalizing l with
  | nil => exact h
  | cons s ss ih =>
    obtain ⟨l₁, h₁, h₂⟩ := bind_eq_ok.mp h
    obtain ⟨⟨m, hm⟩, hs, hl⟩ := enter_eq_ok.mp h₁
    rw [enterAll, enter_eq_ok.mpr ⟨hdir l m hm, hs, hl⟩, ok_bind]
    exact ih h₂

/-- Where directories stay, paths lead where they led. -/
theorem locate_of_directory {t' : FileTree} (hcurrent : t'.current = t.current)
    (hdir : ∀ l m, t.entry? l = some (.directory m) → ∃ m', t'.entry? l = some (.directory m'))
    (h : t.locate p = .ok l) : t'.locate p = .ok l := by
  obtain ⟨hn, hs, he⟩ := locate_eq_ok.mp h
  rw [← hcurrent] at he
  exact locate_eq_ok.mpr ⟨hn, hs, enterAll_of_directory hdir he⟩

/-- The names in a path that can be followed are not too long. -/
theorem names_le_of_enterAll {ss : List Segment} {l' : Location} (h : t.enterAll l ss = .ok l') :
    ∀ s ∈ ss, s = .up ∨ s.text.utf8ByteSize ≤ maxName := by
  induction ss generalizing l with
  | nil => simp
  | cons s ss ih =>
    obtain ⟨l₁, h₁, h₂⟩ := bind_eq_ok.mp h
    intro s' hs'
    rcases List.mem_cons.mp hs' with rfl | hs'
    · exact (enter_eq_ok.mp h₁).2.1
    · exact ih h₂ s' hs'

/-- A path that is looked up is not too long, and no name in it is. -/
theorem isNameable_of_locate (h : t.locate p = .ok l) : p.IsNameable :=
  have h := locate_eq_ok.mp h
  ⟨h.1, h.2.1, names_le_of_enterAll h.2.2⟩

/-- A path that is not too long is followed segment by segment. -/
theorem locate_of_isNameable (t : FileTree) (hn : p.IsNameable) :
    t.locate p = t.enterAll (if p.isAbsolute then [] else t.current) p.segments := by
  have hnull : (toString p).toList.contains '\x00' = false := by simpa using hn.noNull
  have hsize : ¬maxPath ≤ (toString p).utf8ByteSize := by have := hn.size_lt; omega
  unfold locate
  simp only [hnull, hsize, Bool.false_eq_true, if_false]

/-- A path that is not too long, and in which no name is, is not refused for that. -/
theorem stat_ne_nameTooLong (t : FileTree) (hn : p.IsNameable) : t.stat p ≠ .error .nameTooLong := by
  have henter {l : Location} {s : Segment} (hs : s = .up ∨ s.text.utf8ByteSize ≤ maxName) :
      t.enter l s ≠ .error .nameTooLong := by
    unfold enter
    split
    · simp
    · simp
    · split
      · simp
      · next hup => simp [hs.resolve_left hup]
  have hall {l : Location} {ss : List Segment}
      (hss : ∀ s ∈ ss, s = .up ∨ s.text.utf8ByteSize ≤ maxName) :
      t.enterAll l ss ≠ .error .nameTooLong := by
    induction ss generalizing l with
    | nil => simp [enterAll]
    | cons s ss ih =>
      rw [enterAll]
      cases he : t.enter l s with
      | error r =>
        have hne := henter (l := l) (hss s List.mem_cons_self)
        rw [he] at hne
        exact hne
      | ok l' => exact ih fun s' hs' ↦ hss s' (List.mem_cons_of_mem _ hs')
  unfold stat
  rw [locate_of_isNameable t hn]
  cases he : t.enterAll (if p.isAbsolute then [] else t.current) p.segments with
  | error r =>
    have hne := hall (l := if p.isAbsolute then [] else t.current) hn.names_le
    rw [he] at hne
    rw [error_bind]
    simpa using hne
  | ok l =>
    rw [ok_bind]
    split <;> simp

/-- Whether a file stands at a path that is not too long can be told. -/
theorem isFile_isOk (t : FileTree) (hn : p.IsNameable) : ∃ b, t.isFile p = .ok b :=
  ⟨_, isFile_eq_ok.mpr ⟨t.stat_ne_nameTooLong hn, rfl⟩⟩

/-- A path without double dots is found if something stands where it leads. -/
theorem WellFormed.locate_eq_ok (h : t.WellFormed) (hs : p.IsStraight) (hn : p.IsNameable) {e : Entry}
    (he : t.entry? (t.place p) = some e) : t.locate p = .ok (t.place p) := by
  rw [place_of_isStraight t hs] at he ⊢
  exact FileTree.locate_eq_ok.mpr ⟨hn.noNull, hn.size_lt, h.enterAll_eq_ok hs hn.names_le he⟩

/-- Below a directory a path without double dots is found if something stands where it leads, however the directory
is reached. -/
theorem WellFormed.locate_join (h : t.WellFormed) {project q : Path} {m : Timestamp}
    (hproject : t.stat project = .ok (.directory m)) (hs : q.IsStraight) (hn : (project / q).IsNameable)
    {e : Entry} (he : t.entry? (t.place (project / q)) = some e) :
    t.locate (project / q) = .ok (t.place (project / q)) := by
  cases ha : q.isAbsolute with
  | true =>
    rw [Path.join_of_isAbsolute ha] at hn he ⊢
    exact h.locate_eq_ok hs hn he
  | false =>
    have hjoin := Path.join_of_not_isAbsolute (p := project) ha
    have hplace : t.place (project / q) = q.segments.reverse ++ t.place project := by
      rw [hjoin, place, place, Location.follow, List.foldl_append, Location.foldl_step_of_ne_up hs]
      rfl
    obtain ⟨-, -, hway⟩ := FileTree.locate_eq_ok.mp (FileTree.stat_eq_ok.mp hproject).1
    have hanchor : (project / q).isAbsolute = project.isAbsolute := by
      rw [hjoin]
      rfl
    rw [locate_of_isNameable t hn, hanchor, hplace]
    rw [hplace] at he
    rw [hjoin] at hn ⊢
    rw [enterAll_append, hway, ok_bind]
    exact h.enterAll_eq_ok hs (fun s hmem ↦ hn.names_le s (List.mem_append_right _ hmem)) he

/-- A path without double dots is found exactly if something stands where it leads. -/
theorem WellFormed.stat_eq_ok (h : t.WellFormed) (hs : p.IsStraight) {e : Entry} :
    t.stat p = .ok e ↔ p.IsNameable ∧ t.entry? (t.place p) = some e := by
  rw [FileTree.stat_eq_ok]
  constructor
  · rintro ⟨hl, he⟩
    exact ⟨isNameable_of_locate hl, he⟩
  · rintro ⟨hn, he⟩
    exact ⟨h.locate_eq_ok hs hn he, he⟩

/-- A file stands where a directory would have to stand for the path to be followed. -/
def IsBarred (t : FileTree) (p : Path) : Prop :=
  ∃ ss s ss' bytes m, p.segments = ss ++ s :: ss' ∧
    t.entry? (t.place ⟨p.anchor, ss⟩) = some (.file bytes m)

/-- Names that cannot be followed lead to nothing, or come behind a file. -/
theorem refusal_of_enterAll {r : Refusal} {ss : List Segment} (hup : ∀ s ∈ ss, s ≠ .up)
    (hsize : ∀ s ∈ ss, s = .up ∨ s.text.utf8ByteSize ≤ maxName) (h : t.enterAll l ss = .error r) :
    r = .notFound ∨ ∃ ss₁ s ss₂ bytes m, ss = ss₁ ++ s :: ss₂ ∧
      t.entry? (ss₁.reverse ++ l) = some (.file bytes m) := by
  induction ss generalizing l with
  | nil => simp [enterAll] at h
  | cons s ss ih =>
    rcases bind_eq_error.mp h with h | ⟨l', h', h⟩
    · unfold enter at h
      split at h
      · exact .inl (Except.error.inj h).symm
      · next bytes m hfile => exact .inr ⟨[], s, ss, bytes, m, rfl, hfile⟩
      · have hs := (hsize s List.mem_cons_self).resolve_left (hup s List.mem_cons_self)
        simp [hup s List.mem_cons_self, hs] at h
    · obtain ⟨-, -, rfl⟩ := enter_eq_ok.mp h'
      rw [Location.step, if_neg (hup s List.mem_cons_self)] at h
      rcases ih (fun s' hs' ↦ hup s' (List.mem_cons_of_mem _ hs'))
        (fun s' hs' ↦ hsize s' (List.mem_cons_of_mem _ hs')) h with
        hr | ⟨ss₁, s', ss₂, bytes, m, rfl, hfile⟩
      · exact .inl hr
      · refine .inr ⟨s :: ss₁, s', ss₂, bytes, m, rfl, ?_⟩
        rw [List.reverse_cons, List.append_assoc]
        exact hfile

/-- A path without double dots is not found exactly if nothing stands where it leads, and it is not
barred. -/
theorem WellFormed.stat_eq_notFound (h : t.WellFormed) (hs : p.IsStraight) (hn : p.IsNameable) :
    t.stat p = .error .notFound ↔ t.entry? (t.place p) = none ∧ ¬t.IsBarred p := by
  have hlocate := locate_of_isNameable t hn
  have hplace {ss : List Segment} (hss : ∀ s ∈ ss, s ≠ .up) :
      t.place ⟨p.anchor, ss⟩ = ss.reverse ++ if p.isAbsolute then [] else t.current :=
    place_of_isStraight t hss
  constructor
  · intro hstat
    constructor
    · cases he : t.entry? (t.place p) with
      | none => rfl
      | some e =>
        have hfound := (h.stat_eq_ok hs).mpr ⟨hn, he⟩
        simp [hstat] at hfound
    · rintro ⟨ss, s, ss', bytes, m, hsegments, hfile⟩
      have hup : ∀ s' ∈ ss, s' ≠ .up := fun s' hs' ↦ hs s' (by simp [hsegments, hs'])
      have hsize : ∀ s' ∈ ss, s' = .up ∨ s'.text.utf8ByteSize ≤ maxName := fun s' hs' ↦
        hn.names_le s' (by simp [hsegments, hs'])
      rw [hplace hup] at hfile
      have hreach := h.enterAll_eq_ok hup hsize hfile
      have hbarred : t.locate p = .error .notDirectory := by
        rw [hlocate, hsegments, enterAll_append, hreach, ok_bind, enterAll, enter, hfile]
        rfl
      rw [stat, hbarred, error_bind] at hstat
      simp at hstat
  · rintro ⟨hnone, hbarred⟩
    cases hl : t.locate p with
    | ok l =>
      obtain rfl := eq_place_of_locate hl
      rw [stat, hl, ok_bind, hnone]
    | error r =>
      rw [stat, hl, error_bind]
      rw [hlocate] at hl
      rcases refusal_of_enterAll hs hn.names_le hl with rfl | ⟨ss, s, ss', bytes, m, hsegments, hfile⟩
      · rfl
      · refine absurd ⟨ss, s, ss', bytes, m, hsegments, ?_⟩ hbarred
        rw [hplace fun s' hs' ↦ hs s' (by simp [hsegments, hs'])]
        exact hfile

/-- The time of the last change at a path, if something is found there. -/
def time? (t : FileTree) (p : Path) : Option Timestamp := (t.stat p).toOption.map Entry.modified

theorem time?_eq_some {m : Timestamp} :
    t.time? p = some m ↔ ∃ e, t.stat p = .ok e ∧ e.modified = m := by
  unfold time?
  cases t.stat p <;> simp [Except.toOption]

theorem time?_eq_none : t.time? p = none ↔ ∀ e, t.stat p ≠ .ok e := by
  unfold time?
  cases t.stat p <;> simp [Except.toOption]

/-- The time of the last change that is asked for is that of what is found. -/
theorem eq_time?_of_modified? {m? : Option Timestamp} (h : t.modified? p = .ok m?) :
    m? = t.time? p := by
  rcases modified?_eq_ok.mp h with ⟨e, he, rfl⟩ | ⟨he, rfl⟩
  · rw [time?, he]
    rfl
  · rw [time?, he]
    rfl

/-! ### Single changes -/

theorem entry?_put (t : FileTree) (l l' : Location) (e : Entry) :
    FileTree.entry? (t.put l e) l' = if l' ≠ [] ∧ l' = l then some e else t.entry? l' := by
  unfold entry? put
  by_cases h : l' = []
  · simp [h]
  · simp [h, Table.find?_insert]

theorem entry?_erase (t : FileTree) (l l' : Location) :
    FileTree.entry? (t.erase l) l' = if l' ≠ [] ∧ l' = l then none else t.entry? l' := by
  have hfind (es : List (Location × Entry)) :
      (es.filter fun n ↦ n.1 ≠ l).find? (·.1 = l') =
        if l' = l then none else es.find? (·.1 = l') := by
    induction es with
    | nil => simp
    | cons n es ih =>
      by_cases hn : n.1 = l
      · rw [List.filter_cons_of_neg (by simpa using hn), ih, List.find?_cons, hn]
        by_cases hl : l' = l
        · simp [hl]
        · simp [hl, Ne.symm hl]
      · rw [List.filter_cons_of_pos (by simpa using hn), List.find?_cons, List.find?_cons, ih]
        by_cases hl : l' = l
        · subst hl
          simp [hn]
        · simp [hl]
  unfold entry? erase Table.find?
  by_cases h : l' = []
  · simp [h]
  · simp only [h, if_false, hfind, ne_eq, not_false_eq_true, true_and]
    split <;> rfl

variable {t' : FileTree}

/-- A file can be written where the way is open and no directory stands. -/
theorem write_eq_ok {bytes : ByteArray} {m : Timestamp} :
    t.write p bytes m = .ok t' ↔ ∃ l, t.locate p = .ok l ∧
      (∀ m, t.entry? l ≠ some (.directory m)) ∧ t' = t.put l (.file bytes m) := by
  unfold write
  cases hl : t.locate p with
  | error r => simp
  | ok l =>
    dsimp only
    split
    · next m' he => simp [he]
    · next hnew => simpa [eq_comm] using fun _ ↦ hnew

/-- A file can be removed where it is found. -/
theorem remove_eq_ok :
    t.remove p = .ok t' ↔ ∃ l bytes m, t.locate p = .ok l ∧ t.entry? l = some (.file bytes m) ∧
      t' = t.erase l := by
  unfold remove
  cases hl : t.locate p with
  | error r => simp
  | ok l =>
    dsimp only
    split
    · next bytes m he => simp [he, eq_comm]
    · next m he => simp [he]
    · next he => simp [he]

/-- A directory can be made where the way is open and nothing stands. -/
theorem makeDirectory_eq_ok :
    t.makeDirectory p = .ok t' ↔ ∃ l, t.locate p = .ok l ∧ t.entry? l = none ∧
      t' = t.put l (.directory t.clock) := by
  unfold makeDirectory
  cases hl : t.locate p with
  | error r => simp
  | ok l =>
    dsimp only
    split
    · next e he => simp [he]
    · next he => simp [he, eq_comm]

/-- A tree of files with their texts and times, with the directories that they stand in. -/
def ofFiles (clock : Timestamp) (files : List (String × String × Timestamp)) : FileTree where
  current := []
  clock
  nodes := .ofList (files.flatMap fun (path, text, modified) ↦
    let l := (Path.ofString path).segments.reverse
    (l.tail.tails.map fun above ↦ (above, .directory clock)) ++ [(l, .file text.toUTF8 modified)])

end FileTree

end ModuleBuild
