import ModuleBuild.Proofs.FileTree.Contents
import ModuleBuild.Proofs.FileTree.Evolution
import ModuleBuild.Proofs.Path.Text
import Mathlib.Data.List.Basic

/-!
# When directories can be made

A directory can be made, with those on the way to it, if its path is not too long and no file stands on the
way (`exists_ensureDirectory`). Names in a directory that is there can be looked up
(`WellFormed.locate_of_parent`).
-/

namespace ModuleBuild

namespace Path

/-- What leads to a path is a part of its text, unless it is nothing. -/
theorem exists_toString_append (a : Anchor) (ss : List Segment) (s : Segment) :
    ∃ rest, toString (⟨a, ss ++ [s]⟩ : Path) =
      a.text ++ "/".intercalate (ss.map Segment.text) ++ rest := by
  have hprefix (xs : List (List Char)) (cs : List Char) :
      ['/'].intercalate xs <+: ['/'].intercalate (xs ++ [cs]) := by
    induction xs with
    | nil => exact List.nil_prefix
    | cons x xs ih =>
      cases xs with
      | nil => simp [List.intercalate_cons_cons]
      | cons x' xs =>
        rw [List.cons_append, List.cons_append, List.intercalate_cons_cons, List.intercalate_cons_cons]
        exact (List.prefix_append_right_inj _).mpr ih
  obtain ⟨rest, hrest⟩ := hprefix (ss.map fun s ↦ s.text.toList) s.text.toList
  refine ⟨.ofList rest, String.toList_inj.mp ?_⟩
  change (Path.toString _).toList = _
  rw [Path.toString, if_neg (by simp), toList_anchor_append, String.toList_append, toList_anchor_append,
    String.toList_ofList, List.append_assoc, hrest, List.map_append, List.map_singleton]

/-- What leads to a path that is not too long is not too long. -/
theorem IsNameable.of_concat {a : Anchor} {ss : List Segment} {s : Segment}
    (h : IsNameable ⟨a, ss ++ [s]⟩) : IsNameable ⟨a, ss⟩ := by
  have hnames : ∀ s' ∈ ss, s' = .up ∨ s'.text.utf8ByteSize ≤ FileTree.maxName := fun s' hs' ↦
    h.names_le s' (List.mem_append_left _ hs')
  by_cases hdot : a = .here ∧ ss = []
  · obtain ⟨rfl, rfl⟩ := hdot
    exact ⟨by decide, by decide, hnames⟩
  · obtain ⟨rest, hrest⟩ := exists_toString_append a ss s
    have hnull := h.noNull
    have hsize := h.size_lt
    have htext : toString (⟨a, ss⟩ : Path) = a.text ++ "/".intercalate (ss.map Segment.text) := if_neg hdot
    rw [hrest, ← htext, String.toList_append, List.mem_append, not_or] at hnull
    rw [hrest, ← htext, String.utf8ByteSize_append] at hsize
    exact ⟨hnull.1, by omega, hnames⟩

theorem IsNameable.parent {p : Path} (h : p.IsNameable) : p.parent.IsNameable := by
  obtain ⟨a, ss⟩ := p
  rcases List.eq_nil_or_concat' ss with rfl | ⟨front, s, rfl⟩
  · exact h
  · rw [Path.parent, List.dropLast_concat]
    exact h.of_concat

end Path

namespace FileTree

variable {t : FileTree} {p : Path}

/-- Where a directory stands, names in it can be looked up. -/
theorem WellFormed.locate_of_parent (ht : t.WellFormed) (hs : p.IsStraight) (hn : p.IsNameable)
    (hp : p.segments ≠ []) {m : Timestamp} (hd : t.entry? (t.place p).tail = some (.directory m)) :
    t.locate p = .ok (t.place p) := by
  obtain ⟨a, ss⟩ := p
  obtain ⟨front, s, rfl⟩ := (List.eq_nil_or_concat' ss).resolve_left hp
  have hup : ∀ s' ∈ front, s' ≠ .up := fun s' hs' ↦ hs s' (List.mem_append_left _ hs')
  have hlast : s ≠ .up := hs s (by simp)
  have hnames : ∀ s' ∈ front ++ [s], s' = .up ∨ s'.text.utf8ByteSize ≤ maxName := hn.names_le
  rw [place_of_isStraight t hs] at hd ⊢
  rw [List.reverse_append, List.reverse_singleton, List.singleton_append, List.cons_append] at hd ⊢
  have hway := ht.enterAll_eq_ok hup (fun s' hs' ↦ hnames s' (List.mem_append_left _ hs')) hd
  have henter : t.enter (front.reverse ++ if Path.isAbsolute ⟨a, front ++ [s]⟩ then [] else t.current) s =
      .ok (s :: (front.reverse ++ if Path.isAbsolute ⟨a, front ++ [s]⟩ then [] else t.current)) :=
    enter_eq_ok.mpr ⟨⟨m, hd⟩, hnames s (by simp), (if_neg hlast).symm⟩
  refine FileTree.locate_eq_ok.mpr ⟨hn.noNull, hn.size_lt, ?_⟩
  rw [enterAll_append, hway, ok_bind, enterAll, henter]
  rfl

/-- Whether a name in a directory can be looked up hangs on the name alone. -/
theorem locate_eq_of_parent {u : FileTree} (hcurrent : u.current = t.current) (hp : p.segments ≠ [])
    {m m' : Timestamp} (ht : t.stat p.parent = .ok (.directory m))
    (hu : u.stat p.parent = .ok (.directory m')) : u.locate p = t.locate p := by
  obtain ⟨a, ss⟩ := p
  obtain ⟨front, s, rfl⟩ := (List.eq_nil_or_concat' ss).resolve_left hp
  have hparent : (⟨a, front ++ [s]⟩ : Path).parent = ⟨a, front⟩ := by
    rw [Path.parent, List.dropLast_concat]
  rw [hparent] at ht hu
  obtain ⟨hlocate, hdir⟩ := stat_eq_ok.mp ht
  obtain ⟨hlocate', hdir'⟩ := stat_eq_ok.mp hu
  have hplace := place_congr hcurrent ⟨a, front⟩
  have hway := (FileTree.locate_eq_ok.mp hlocate).2.2
  have hway' := (FileTree.locate_eq_ok.mp hlocate').2.2
  have hlast : ∀ s', u.enter (u.place ⟨a, front⟩) s' = t.enter (t.place ⟨a, front⟩) s' := by
    intro s'
    unfold enter
    rw [hdir, hdir', hplace]
  have habsolute : (⟨a, front ++ [s]⟩ : Path).isAbsolute = (⟨a, front⟩ : Path).isAbsolute := rfl
  unfold locate
  rw [habsolute]
  dsimp only
  rw [enterAll_append, enterAll_append, hway, hway', ok_bind, ok_bind, enterAll, enterAll, hlast]
  rfl

/-- Trees are alike at a name in a directory if they hold the same there. -/
theorem AgreeAt.alikeAt {u : FileTree} (h : t.AgreeAt u (t.place p)) (hcurrent : u.current = t.current)
    (hp : p.segments ≠ []) {m m' : Timestamp} (ht : t.stat p.parent = .ok (.directory m))
    (hu : u.stat p.parent = .ok (.directory m')) : t.AlikeAt u p := by
  refine ⟨locate_eq_of_parent hcurrent hp ht hu, fun l hl ↦ ?_⟩
  rwa [eq_place_of_locate hl]

/-- No file stands at a location or above it. -/
def IsClear (t : FileTree) (l : Location) : Prop :=
  ∀ l' ∈ upTo l, ∀ bytes m, t.entry? l' ≠ some (.file bytes m)

/-- What is neither written nor made is the same. -/
theorem Touches.agreeAt {t' : FileTree} {written made : Set Location} {l : Location}
    (h : t.Touches t' written made) (hw : l ∉ written) (hm : l ∉ made) : t.AgreeAt t' l :=
  .of_eq (h.entry?_eq hw fun hl ↦ absurd hl hm)

/-- Files stand at or above a location only if they did, or are written there. -/
theorem Touches.isClear_iff {t' : FileTree} {written made : Set Location} {l : Location}
    (h : t.Touches t' written made) (hw : ∀ l' ∈ upTo l, l' ∉ written) : t'.IsClear l ↔ t.IsClear l := by
  constructor
  · exact fun hclear l' hl' bytes m hfile ↦ hclear l' hl' bytes m (h.entry?_eq_some (hw l' hl') hfile)
  · intro hclear l' hl' bytes m hfile
    rcases h.kept l' (hw l' hl') with hkept | ⟨-, -, hmade⟩
    · exact hclear l' hl' bytes m (hkept.symm.trans hfile)
    · rw [hmade] at hfile
      simp at hfile

/-- A path on whose way no file stands is refused only because something is missing. -/
theorem refusal_of_isClear (hs : p.IsStraight) (hn : p.IsNameable) (hclear : t.IsClear (t.place p))
    {r : Refusal} (h : t.locate p = .error r) : r = .notFound := by
  rw [locate_of_isNameable t hn] at h
  rcases refusal_of_enterAll hs hn.names_le h with hr | ⟨ss, s, ss', bytes, m, hsegments, hfile⟩
  · exact hr
  · refine absurd hfile (hclear _ ?_ bytes m)
    rw [place_of_isStraight t hs, hsegments]
    exact ⟨(s :: ss').reverse, by simp⟩

/-- A directory can be made where nothing stands, if one stands around it. -/
theorem exists_makeDirectory (hl : t.locate p = .ok (t.place p)) (hnone : t.entry? (t.place p) = none) :
    ∃ t', t.makeDirectory p = .ok t' :=
  ⟨_, makeDirectory_eq_ok.mpr ⟨_, hl, hnone, rfl⟩⟩

/-- A directory can be made, with those on the way, where no file stands on the way. -/
theorem exists_makeDirectories (ht : t.WellFormed) {a : Anchor} {ss : List Segment}
    (hs : ∀ s ∈ ss, s ≠ .up) (hn : Path.IsNameable ⟨a, ss.reverse⟩)
    (hclear : t.IsClear (t.place ⟨a, ss.reverse⟩)) :
    ∃ t', t.makeDirectories a ss = (t', .ok ()) := by
  have hstraight {ss : List Segment} (hs : ∀ s ∈ ss, s ≠ .up) :
      (⟨a, ss.reverse⟩ : Path).IsStraight := fun s hs' ↦ hs s (List.mem_reverse.mp hs')
  have hthere {ss : List Segment} {m : Timestamp} (hs : ∀ s ∈ ss, s ≠ .up)
      (hn : Path.IsNameable ⟨a, ss.reverse⟩)
      (hd : t.entry? (t.place ⟨a, ss.reverse⟩) = some (.directory m)) :
      t.makeDirectories a ss = (t, .ok ()) := by
    have hensure := ensureDirectory_of_directory ((ht.stat_eq_ok (hstraight hs)).mpr ⟨hn, hd⟩)
    rwa [ensureDirectory, List.reverse_reverse] at hensure
  induction ss with
  | nil =>
    -- the path leads to the current directory or the root
    obtain ⟨m, hm⟩ : ∃ m, t.entry? (t.place ⟨a, [].reverse⟩) = some (.directory m) := by
      rw [place_of_isStraight t (hstraight hs)]
      cases (⟨a, [].reverse⟩ : Path).isAbsolute with
      | true => exact ⟨_, entry?_nil t⟩
      | false => exact ht.current
    exact ⟨t, hthere hs hn hm⟩
  | cons s ss ih =>
    have hss : ∀ s' ∈ ss, s' ≠ .up := fun s' hs' ↦ hs s' (List.mem_cons_of_mem _ hs')
    have hplace : t.place ⟨a, (s :: ss).reverse⟩ = s :: t.place ⟨a, ss.reverse⟩ := by
      rw [place_of_isStraight t (hstraight hs), place_of_isStraight t (hstraight hss)]
      simp [Path.isAbsolute]
    cases he : t.entry? (t.place ⟨a, (s :: ss).reverse⟩) with
    | some e =>
      cases e with
      | file bytes m => exact absurd he (hclear _ (List.suffix_refl _) bytes m)
      | directory m => exact ⟨t, hthere hs hn he⟩
    | none =>
      rw [makeDirectories]
      cases hl : t.locate ⟨a, (s :: ss).reverse⟩ with
      | ok l =>
        obtain rfl := eq_place_of_locate hl
        obtain ⟨t', ht'⟩ := exists_makeDirectory hl he
        exact ⟨t', by rw [ht']⟩
      | error r =>
        -- what leads there is made first
        obtain rfl := refusal_of_isClear (hstraight hs) hn hclear hl
        have hn' : Path.IsNameable ⟨a, ss.reverse⟩ := by
          rw [List.reverse_cons] at hn
          exact hn.of_concat
        obtain ⟨t₁, h₁⟩ := ih hss hn' fun l hl' ↦ hclear l (hplace ▸ hl'.trans (List.suffix_cons ..))
        obtain ⟨hev, hdir⟩ := evolves_makeDirectories ht t.clock a ss
        rw [h₁] at hev hdir
        dsimp only at hev hdir
        have hev := hev.mono (Set.Subset.refl _) (t.onWay_subset (hstraight hss))
        obtain ⟨m, hm⟩ := hdir rfl
        have hm := (stat_eq_ok.mp hm).2
        have hnone : t₁.entry? (t₁.place ⟨a, (s :: ss).reverse⟩) = none := by
          rw [hev.place_eq, hev.entry?_eq (Set.notMem_empty _), he]
          rintro ⟨front, hfront⟩
          have hlength := congrArg List.length hfront
          rw [hplace] at hlength
          simp at hlength
          omega
        have htail : (t₁.place ⟨a, (s :: ss).reverse⟩).tail = t₁.place ⟨a, ss.reverse⟩ := by
          rw [hev.place_eq, hev.place_eq, hplace, List.tail_cons]
        have hlocate := (hev.wellFormed ht).locate_of_parent (hstraight hs) hn (by simp) (htail ▸ hm)
        obtain ⟨t', ht'⟩ := exists_makeDirectory hlocate hnone
        have hrefused : t.makeDirectory ⟨a, (s :: ss).reverse⟩ =
            .error ⟨.notFound, ⟨a, (s :: ss).reverse⟩⟩ := by
          rw [makeDirectory, hl]
        rw [hrefused]
        simp only [if_true, h₁, ht']
        exact ⟨t', rfl⟩

/-- Seeing to a directory succeeds where no file stands on the way. -/
theorem exists_ensureDirectory (ht : t.WellFormed) (hs : p.IsStraight) (hn : p.IsNameable)
    (hclear : t.IsClear (t.place p)) : ∃ t', t.ensureDirectory p = (t', .ok ()) := by
  apply exists_makeDirectories ht (fun s hs' ↦ hs s (List.mem_reverse.mp hs'))
  · rwa [List.reverse_reverse]
  · rwa [List.reverse_reverse]

/-- Where a directory stands, directories stand above it. -/
theorem WellFormed.directory_of_suffix (ht : t.WellFormed) {l l' : Location} {m : Timestamp}
    (hd : t.entry? l = some (.directory m)) (hl : l' ∈ upTo l) :
    ∃ m, t.entry? l' = some (.directory m) := by
  obtain ⟨front, rfl⟩ := hl
  by_cases hfront : front = []
  · subst hfront
    exact ⟨m, hd⟩
  · exact ht.directory_of_append hfront hd

/-- Where seeing to a directory succeeds, no file stood on the way, and directories stand there now. -/
theorem isClear_of_ensureDirectory (ht : t.WellFormed) (hs : p.IsStraight) {t' : FileTree}
    (h : t.ensureDirectory p = (t', .ok ())) :
    t.IsClear (t.place p) ∧ ∀ l ∈ upTo (t.place p), ∃ m, t'.entry? l = some (.directory m) := by
  obtain ⟨hev, m, hdir⟩ := evolves_ensureDirectory ht t.clock hs h
  have hdir := (stat_eq_ok.mp hdir).2
  rw [hev.place_eq] at hdir
  have hall : ∀ l ∈ upTo (t.place p), ∃ m, t'.entry? l = some (.directory m) := fun l hl ↦
    (hev.wellFormed ht).directory_of_suffix hdir hl
  refine ⟨fun l hl bytes m hfile ↦ ?_, hall⟩
  obtain ⟨m', hm'⟩ := hall l hl
  rw [hev.entry?_eq_some (Set.notMem_empty l) hfile] at hm'
  simp at hm'

/-- Seeing to a directory can be done again in another tree if no file stands on the way there. What is then held
on the way is the same, and so is what was the same elsewhere. -/
theorem ensureDirectory_alike (ht : t.WellFormed) {t' u : FileTree} (hu : u.WellFormed)
    (hcurrent : u.current = t.current) (hs : p.IsStraight) (h : t.ensureDirectory p = (t', .ok ()))
    (hclear : u.IsClear (t.place p)) :
    ∃ u', u.ensureDirectory p = (u', .ok ()) ∧
      ∀ l, l ∈ upTo (t.place p) ∨ t.AgreeAt u l → t'.AgreeAt u' l := by
  obtain ⟨hev, m, hdir⟩ := evolves_ensureDirectory ht t.clock hs h
  have hplace := place_congr hcurrent p
  obtain ⟨u', h'⟩ := exists_ensureDirectory hu hs (isNameable_of_locate (stat_eq_ok.mp hdir).1)
    (hplace ▸ hclear)
  obtain ⟨hev', -⟩ := evolves_ensureDirectory hu u.clock hs h'
  refine ⟨u', h', fun l hl ↦ ?_⟩
  by_cases habove : l ∈ upTo (t.place p)
  · obtain ⟨m₁, hm₁⟩ := (isClear_of_ensureDirectory ht hs h).2 l habove
    obtain ⟨m₂, hm₂⟩ := (isClear_of_ensureDirectory hu hs h').2 l (hplace ▸ habove)
    exact .of_directory hm₁ hm₂
  · have hkept := hev.entry?_eq (Set.notMem_empty l) fun h ↦ absurd h habove
    have hkept' := hev'.entry?_eq (Set.notMem_empty l) fun h ↦ absurd (hplace ▸ h) habove
    rw [AgreeAt, hkept, hkept']
    exact hl.resolve_left habove

end FileTree

end ModuleBuild
