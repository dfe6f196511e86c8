import ModuleBuild.Proofs.Text.Blank
import ModuleBuild.Text.ItemList

/-!
# Maximal runs

A maximal run is a stretch of a text without separators that goes on in neither direction (`MaximalRun`). The runs of a
text are its maximal runs, from the first to the last (`exists_maximalRuns`), and runs with separators between them are
read back (`runs_parted`). With commas and blanks for separators these are the items of a list (`ItemList.items_maximal`).
-/

namespace ModuleBuild.Text

variable {sep : Char → Bool} {cs front back : List Char} {c : Char}

/-- A stretch of a text without separators, with separators or nothing at either end of it. -/
@[ext] structure MaximalRun (sep : Char → Bool) (cs : List Char) where
  /-- What stands before the run. -/
  front : List Char
  run : List Char
  /-- What stands behind the run. -/
  back : List Char
  text_eq : cs = front ++ (run ++ back)
  ne_nil : run ≠ []
  not_sep : ∀ c ∈ run, sep c = false
  sep_front : ∀ c ∈ front.getLast?, sep c
  sep_back : ∀ c ∈ back.head?, sep c

namespace MaximalRun

/-- All of a text without separators. -/
def whole (h : ∀ c ∈ cs, sep c = false) (hne : cs ≠ []) : MaximalRun sep cs where
  front := []
  run := cs
  back := []
  text_eq := by simp
  ne_nil := hne
  not_sep := h
  sep_front := by simp
  sep_back := by simp

/-- What stands before the first separator. -/
def first (h : ∀ c ∈ front, sep c = false) (hne : front ≠ []) (hc : sep c) (back : List Char) :
    MaximalRun sep (front ++ c :: back) where
  front := []
  run := front
  back := c :: back
  text_eq := rfl
  ne_nil := hne
  not_sep := h
  sep_front := by simp
  sep_back := by simpa using hc

/-- A run of what stands behind a separator. -/
def behind (front : List Char) (hc : sep c) (r : MaximalRun sep back) : MaximalRun sep (front ++ c :: back) where
  front := front ++ c :: r.front
  run := r.run
  back := r.back
  text_eq := by simp [← r.text_eq]
  ne_nil := r.ne_nil
  not_sep := r.not_sep
  sep_front := by
    cases hlast : r.front.getLast? with
    | none => simpa [List.getLast?_cons, hlast] using hc
    | some d => simpa [List.getLast?_cons, hlast] using r.sep_front d hlast
  sep_back := r.sep_back

/-- A run does not begin behind characters that are no separators. -/
theorem front_eq_nil (r : MaximalRun sep cs) (h : ∀ c ∈ r.front, sep c = false) : r.front = [] := by
  obtain hnil | ⟨front, c, hfront⟩ := List.eq_nil_or_concat' r.front
  · exact hnil
  · have hsep := r.sep_front c (by simp [hfront])
    have hnot := h c (by simp [hfront])
    simp [hsep] at hnot

/-- A run does not end before characters that are no separators. -/
theorem back_eq_nil (r : MaximalRun sep cs) (h : ∀ c ∈ r.back, sep c = false) : r.back = [] := by
  cases hback : r.back with
  | nil => rfl
  | cons c back =>
    have hsep := r.sep_back c (by simp [hback])
    have hnot := h c (by simp [hback])
    simp [hsep] at hnot

theorem eq_whole (h : ∀ c ∈ cs, sep c = false) (r : MaximalRun sep cs) : ∃ hne, r = whole h hne := by
  have hcs := r.text_eq
  have hfront := r.front_eq_nil fun c hc ↦ h c (by simp [hcs, hc])
  have hback := r.back_eq_nil fun c hc ↦ h c (by simp [hcs, hc])
  have hrun : r.run = cs := by simp [hcs, hfront, hback]
  exact ⟨hrun ▸ r.ne_nil, MaximalRun.ext hfront hrun hback⟩

/-- What stands before the first separator of a text that begins with a run is that run. -/
theorem takeWhile_run {run : List Char} (h : ∀ c ∈ run, sep c = false) (hback : ∀ c ∈ back.head?, sep c) :
    (run ++ back).takeWhile (!sep ·) = run := by
  rw [List.takeWhile_append_of_pos (by simpa using h)]
  cases back with
  | nil => simp
  | cons c back => simp [hback c rfl]

/-- A run ends at the first separator, or begins behind it. -/
theorem eq_first_or_behind (h : ∀ c ∈ front, sep c = false) (hc : sep c) (r : MaximalRun sep (front ++ c :: back)) :
    (∃ hne, r = first h hne hc back) ∨ ∃ r', r = behind front hc r' := by
  obtain ⟨gap, hfront, hback⟩ | ⟨gap, hfront, hback⟩ := List.append_eq_append_iff.mp r.text_eq
  · cases gap with
    | nil =>
      -- the run would begin with the separator
      obtain ⟨d, run, hrun⟩ := List.exists_cons_of_ne_nil r.ne_nil
      rw [List.nil_append, hrun, List.cons_append] at hback
      have hnot := r.not_sep d (by simp [hrun])
      rw [← (List.cons.inj hback).1, hc] at hnot
      cases hnot
    | cons d gap =>
      obtain ⟨rfl, hrest⟩ := List.cons.inj hback
      refine .inr ⟨⟨gap, r.run, r.back, hrest, r.ne_nil, r.not_sep, fun d hd ↦ r.sep_front d ?_, r.sep_back⟩, ?_⟩
      · rw [Option.mem_def] at hd
        simp [hfront, List.getLast?_cons, hd]
      · exact MaximalRun.ext hfront rfl rfl
  · have hnil := r.front_eq_nil fun d hd ↦ h d (by simp [hfront, hd])
    rw [hnil, List.nil_append] at hfront
    subst hfront
    have hrun : r.run = front := by
      rw [← takeWhile_run r.not_sep r.sep_back, hback, takeWhile_run h (by simpa using hc)]
    rw [hrun] at hback
    exact .inl ⟨hrun ▸ r.ne_nil, MaximalRun.ext hnil hrun (List.append_cancel_left hback)⟩

end MaximalRun

/-- The runs of a text are its maximal runs, in order. -/
theorem exists_maximalRuns (sep : Char → Bool) (cs : List Char) : ∃ rs : List (MaximalRun sep cs),
    (∀ r, r ∈ rs) ∧ rs.Pairwise (fun r r' ↦ r.front.length < r'.front.length) ∧ runs sep cs = rs.map (·.run) := by
  induction hlength : cs.length using Nat.strongRecOn generalizing cs with
  | ind n ih =>
    subst hlength
    cases hfind : cs.find? sep with
    | none =>
      have hcs : ∀ c ∈ cs, sep c = false := by simpa using hfind
      by_cases hne : cs = []
      · subst hne
        exact ⟨[], fun r ↦ absurd rfl (r.eq_whole hcs).1, .nil, by simp⟩
      · refine ⟨[.whole hcs hne], fun r ↦ ?_, List.pairwise_singleton _ _, ?_⟩
        · obtain ⟨-, rfl⟩ := r.eq_whole hcs
          exact List.mem_singleton_self _
        · rw [runs_eq_singleton hcs hne]
          rfl
    | some c =>
      obtain ⟨hc, front, back, rfl, hfront⟩ := List.find?_eq_some_iff_append.mp hfind
      have hfront : ∀ d ∈ front, sep d = false := by simpa using hfront
      have hlt : back.length < (front ++ c :: back).length := by simp only [List.length_append, List.length_cons]; omega
      obtain ⟨rs, hmem, hsorted, hruns⟩ := ih back.length hlt back rfl
      have hbehind : (rs.map (MaximalRun.behind front hc)).Pairwise (fun r r' ↦ r.front.length < r'.front.length) :=
        List.pairwise_map.mpr (hsorted.imp fun hlt ↦ by simpa [MaximalRun.behind] using hlt)
      have hmapped : runs sep back = (rs.map (MaximalRun.behind front hc)).map (·.run) := by
        rw [hruns, List.map_map]
        rfl
      by_cases hne : front = []
      · refine ⟨rs.map (.behind front hc), fun r ↦ ?_, hbehind, ?_⟩
        · obtain ⟨hne', -⟩ | ⟨r', rfl⟩ := r.eq_first_or_behind hfront hc
          · exact absurd hne hne'
          · exact List.mem_map_of_mem (hmem r')
        · rw [runs_append_sep hc, hne, runs_nil, List.nil_append, hmapped, hne]
      · refine ⟨.first hfront hne hc back :: rs.map (.behind front hc), fun r ↦ ?_, ?_, ?_⟩
        · obtain ⟨-, rfl⟩ | ⟨r', rfl⟩ := r.eq_first_or_behind hfront hc
          · exact List.mem_cons_self
          · exact List.mem_cons_of_mem _ (List.mem_map_of_mem (hmem r'))
        · refine List.pairwise_cons.mpr ⟨fun r hr ↦ ?_, hbehind⟩
          obtain ⟨r', -, rfl⟩ := List.mem_map.mp hr
          simp only [MaximalRun.first, MaximalRun.behind, List.length_nil, List.length_append, List.length_cons]
          omega
        · rw [runs_append_sep hc, runs_eq_singleton hfront hne, hmapped]
          rfl

namespace ItemList

/-- Items with something between them: `gap n` stands behind the item at place `n`. -/
def joined (gap : Nat → String) : List String → String
  | [] => ""
  | [x] => x
  | x :: y :: xs => x ++ gap 0 ++ joined (fun n ↦ gap (n + 1)) (y :: xs)

/-- The text can stand between two items: it is made of separators, and there is at least one. -/
def IsGap (s : String) : Prop := s ≠ "" ∧ ∀ c ∈ s.toList, isSeparator c

/-- The text can be an item: it is not empty and holds no separator. -/
def IsItem (s : String) : Prop := s ≠ "" ∧ ∀ c ∈ s.toList, isSeparator c = false

variable {gap : Nat → String} {xs : List String} {s x : String}

/-- With the same text everywhere, items are joined as usual. -/
theorem joined_const (s : String) (xs : List String) : joined (fun _ ↦ s) xs = s.intercalate xs := by
  induction xs with
  | nil => rfl
  | cons x xs ih =>
    cases xs with
    | nil => simp [joined]
    | cons y xs => rw [joined, ih, String.intercalate_cons_cons]

theorem isItem_of_mem (h : x ∈ items s) : IsItem x := by
  obtain ⟨run, hrun, rfl⟩ := List.mem_map.mp h
  refine ⟨by simpa using ne_nil_of_mem_runs hrun, fun c hc ↦ ?_⟩
  rw [String.toList_ofList] at hc
  have hfilter : c ∈ s.toList.filter (!isSeparator ·) := by
    rw [← flatten_runs]
    exact List.mem_flatten_of_mem hrun hc
  simpa using (List.mem_filter.mp hfilter).2

/-- The items are the runs of what they are joined to. -/
theorem runs_joined (hgap : ∀ n, IsGap (gap n)) (h : ∀ x ∈ xs, IsItem x) :
    runs isSeparator (joined gap xs).toList = xs.map String.toList := by
  induction xs generalizing gap with
  | nil => exact runs_nil _
  | cons x xs ih =>
    obtain ⟨hempty, hx⟩ := h x List.mem_cons_self
    have hone := runs_eq_singleton hx (by simpa using hempty)
    cases xs with
    | nil => exact hone
    | cons y xs =>
      obtain ⟨hne, hsep⟩ := hgap 0
      obtain ⟨c, rest, hrest⟩ := List.exists_cons_of_ne_nil (show (gap 0).toList ≠ [] by simpa using hne)
      rw [hrest] at hsep
      have htail := ih (fun n ↦ hgap (n + 1)) fun z hz ↦ h z (List.mem_cons_of_mem _ hz)
      rw [joined, String.toList_append, String.toList_append, hrest, List.append_assoc, List.cons_append,
        runs_append_sep (hsep c List.mem_cons_self), hone,
        runs_append_left fun d hd ↦ hsep d (List.mem_cons_of_mem _ hd), htail]
      rfl

/-- What is joined is read back. -/
theorem items_joined (hgap : ∀ n, IsGap (gap n)) (h : ∀ x ∈ xs, IsItem x) : items (joined gap xs) = xs := by
  rw [items, runs_joined hgap h, List.map_map]
  simp [Function.comp_def]

/-- Items with the same text between them are read back. -/
theorem items_intercalate (hs : IsGap s) (h : ∀ x ∈ xs, IsItem x) : items (s.intercalate xs) = xs := by
  rw [← joined_const, items_joined (fun _ ↦ hs) h]

/-- The items of a text are its maximal runs of characters that are neither commas nor blanks, from the first to the
last. So none is empty or holds a separator, together they hold all other characters, and whatever commas and blanks
are put between them, they are read back. -/
theorem items_maximal (s : String) :
    (∃ rs : List (MaximalRun isSeparator s.toList), (∀ r, r ∈ rs) ∧
        rs.Pairwise (fun r r' ↦ r.front.length < r'.front.length) ∧ items s = rs.map fun r ↦ .ofList r.run) ∧
      (∀ x ∈ items s, IsItem x) ∧
      String.join (items s) = .ofList (s.toList.filter (!isSeparator ·)) ∧
      ∀ gap : Nat → String, (∀ n, IsGap (gap n)) → items (joined gap (items s)) = items s := by
  obtain ⟨rs, hmem, hsorted, hruns⟩ := exists_maximalRuns isSeparator s.toList
  refine ⟨⟨rs, hmem, hsorted, ?_⟩, fun x hx ↦ isItem_of_mem hx, ?_, fun gap hgap ↦ ?_⟩
  · rw [items, hruns, List.map_map]
    rfl
  · rw [← String.toList_inj, String.toList_join, String.toList_ofList, ← flatten_runs, items, List.flatMap_map,
      List.flatMap_def]
    simp
  · exact items_joined hgap fun x hx ↦ isItem_of_mem hx

/-- Separators at the ends, and a comma, a folded line and an ideographic space between the items. -/
def threeItems : String := ", a.c,b.c\n\t\u3000c.c "

/-- The three items, with other gaps between them. -/
theorem items_maximal_of_three : items threeItems = ["a.c", "b.c", "c.c"] ∧
    joined (fun n ↦ if n = 0 then ",," else "\u2003") ["a.c", "b.c", "c.c"] = "a.c,,b.c\u2003c.c" ∧
    items "a.c,,b.c\u2003c.c" = ["a.c", "b.c", "c.c"] := by
  have hitems : items threeItems = ["a.c", "b.c", "c.c"] := by decide +kernel
  have hjoined : joined (fun n ↦ if n = 0 then ",," else "\u2003") ["a.c", "b.c", "c.c"] = "a.c,,b.c\u2003c.c" := by
    decide +kernel
  have hgap : ∀ n, IsGap (if n = 0 then ",," else "\u2003") := by
    intro n
    split
    · exact ⟨by decide, List.forall_iff_forall_mem.mp (by decide)⟩
    · exact ⟨by decide, List.forall_iff_forall_mem.mp (by decide)⟩
  have hback := (items_maximal threeItems).2.2.2 _ hgap
  rw [hitems, hjoined] at hback
  exact ⟨hitems, hjoined, hback⟩

end ItemList

end ModuleBuild.Text
