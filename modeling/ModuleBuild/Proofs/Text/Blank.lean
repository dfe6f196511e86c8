import ModuleBuild.Text.Blank
import Mathlib.Data.List.DropRight
import Mathlib.Data.List.Induction

/-!
# Trimming and cutting

A text that is not blank is a character between two other texts, the first of which is blank; trimming leaves the
character and what follows it up to the blanks at the end (`trim_append`). The runs of a text do not see separators at
its ends, in particular not blanks (`runs_trim`), and rows put together have the runs of each (`runs_intercalate`).
-/

namespace ModuleBuild.Text

variable {cs ds : List Char} {c : Char}

/-! ### Trimming -/

theorem trimEnd_eq_rdropWhile (cs : List Char) : trimEnd cs = cs.rdropWhile isBlank := rfl

/-- A text is blank, or its first character that is not is one of its characters. -/
theorem forall_blank_or_exists (cs : List Char) : (∀ c ∈ cs, isBlank c) ∨
    ∃ blanks c rest, cs = blanks ++ c :: rest ∧ (∀ b ∈ blanks, isBlank b) ∧ isBlank c = false := by
  cases hrest : cs.dropWhile isBlank with
  | nil => exact .inl (List.dropWhile_eq_nil_iff.mp hrest)
  | cons c rest =>
    refine .inr ⟨cs.takeWhile isBlank, c, rest, ?_, fun b hb ↦ List.mem_takeWhile_imp hb, ?_⟩
    · rw [← hrest, List.takeWhile_append_dropWhile]
    · have hhead := List.head?_dropWhile_not isBlank cs
      simpa [hrest] using hhead

/-- Blanks at the end are dropped. -/
theorem trimEnd_append_blanks (h : ∀ d ∈ ds, isBlank d) (cs : List Char) : trimEnd (cs ++ ds) = trimEnd cs := by
  rw [trimEnd, List.reverse_append, List.dropWhile_append_of_pos fun d hd ↦ h d (List.mem_reverse.mp hd), trimEnd]

/-- Nothing is dropped up to a character that is not blank. -/
theorem trimEnd_append_cons (hc : isBlank c = false) (cs ds : List Char) :
    trimEnd (cs ++ c :: ds) = cs ++ c :: trimEnd ds := by
  induction ds using List.reverseRecOn with
  | nil =>
    rw [trimEnd_eq_rdropWhile, List.rdropWhile_concat_neg _ _ _ (by simp [hc])]
    rfl
  | append_singleton ds d ih =>
    have hcut : cs ++ c :: (ds ++ [d]) = cs ++ c :: ds ++ [d] := by simp
    rw [hcut]
    by_cases hd : isBlank d
    · rw [trimEnd_append_blanks (by simpa using hd), ih, trimEnd_append_blanks (by simpa using hd)]
    · rw [trimEnd_eq_rdropWhile, trimEnd_eq_rdropWhile, List.rdropWhile_concat_neg _ _ _ hd,
        List.rdropWhile_concat_neg _ _ _ hd, ← hcut]

theorem trimEnd_trimEnd (cs : List Char) : trimEnd (trimEnd cs) = trimEnd cs :=
  List.rdropWhile_idempotent isBlank cs

theorem trim_eq_nil (h : ∀ c ∈ cs, isBlank c) : trim cs = [] := by
  rw [trim, trimStart, List.dropWhile_eq_nil_iff.mpr h]
  rfl

/-- Trimming leaves the first character that is not blank, and what follows it up to the blanks at the end. -/
theorem trim_append (h : ∀ d ∈ ds, isBlank d) (hc : isBlank c = false) (cs : List Char) :
    trim (ds ++ c :: cs) = c :: trimEnd cs := by
  rw [trim, trimStart, List.dropWhile_append_of_pos h, List.dropWhile_cons_of_neg (by simp [hc])]
  exact trimEnd_append_cons hc [] cs

theorem trim_cons (hc : isBlank c) (cs : List Char) : trim (c :: cs) = trim cs := by
  rw [trim, trimStart, List.dropWhile_cons_of_pos hc]
  rfl

theorem trim_trimEnd (cs : List Char) : trim (trimEnd cs) = trim cs := by
  obtain h | ⟨blanks, c, rest, rfl, hblanks, hc⟩ := forall_blank_or_exists cs
  · have hend : ∀ c ∈ trimEnd cs, isBlank c := fun c hc ↦ h c ((List.rdropWhile_prefix isBlank cs).subset hc)
    rw [trim_eq_nil h, trim_eq_nil hend]
  · rw [trimEnd_append_cons hc, trim_append hblanks hc, trim_append hblanks hc, trimEnd_trimEnd]

theorem trim_append_blanks (h : ∀ d ∈ ds, isBlank d) (cs : List Char) : trim (cs ++ ds) = trim cs := by
  rw [← trim_trimEnd, trimEnd_append_blanks h, trim_trimEnd]

theorem trimEnd_trim (cs : List Char) : trimEnd (trim cs) = trim cs := trimEnd_trimEnd _

/-- A text without blanks at its end stays. -/
theorem trimEnd_eq_self (h : ∀ c ∈ cs.getLast?, isBlank c = false) : trimEnd cs = cs := by
  obtain rfl | ⟨front, c, rfl⟩ := List.eq_nil_or_concat' cs
  · rfl
  · exact trimEnd_append_cons (h c List.getLast?_concat) front []

/-- A text without blanks at either end stays. -/
theorem trim_eq_self (hhead : ∀ c ∈ cs.head?, isBlank c = false) (hlast : ∀ c ∈ cs.getLast?, isBlank c = false) :
    trim cs = cs := by
  cases cs with
  | nil => rfl
  | cons c cs =>
    rw [trim, trimStart, List.dropWhile_cons_of_neg (by simp [hhead c rfl])]
    exact trimEnd_eq_self hlast

/-! ### Runs -/

variable {sep : Char → Bool}

/-- A run has only characters of the text. -/
theorem mem_of_mem_runs {r : List Char} (h : r ∈ runs sep cs) (hc : c ∈ r) : c ∈ cs := by
  have hmem : c ∈ (runs sep cs).flatten := List.mem_flatten.mpr ⟨r, h, hc⟩
  rw [flatten_runs] at hmem
  exact List.mem_of_mem_filter hmem

/-- Separators in front belong to no run. -/
theorem runs_append_left (h : ∀ d ∈ ds, sep d) (cs : List Char) : runs sep (ds ++ cs) = runs sep cs := by
  induction ds with
  | nil => rfl
  | cons d ds ih =>
    have hcut := runs_append_sep (h d List.mem_cons_self) [] (ds ++ cs)
    rw [List.nil_append, runs_nil, List.nil_append] at hcut
    rw [List.cons_append, hcut, ih fun d' hd' ↦ h d' (List.mem_cons_of_mem _ hd')]

/-- Nor do separators at the end. -/
theorem runs_append_right (h : ∀ d ∈ ds, sep d) (cs : List Char) : runs sep (cs ++ ds) = runs sep cs := by
  induction ds using List.reverseRecOn with
  | nil => rw [List.append_nil]
  | append_singleton ds d ih =>
    rw [← List.append_assoc, runs_append_sep (h d (by simp)), runs_nil, List.append_nil]
    exact ih fun c hc ↦ h c (List.mem_append_left _ hc)

/-- A text without separators is one run. -/
theorem runs_eq_singleton (h : ∀ c ∈ cs, sep c = false) (hne : cs ≠ []) : runs sep cs = [cs] := by
  have hsplit : cs.splitOnP sep = [cs] := List.splitOnP_eq_singleton h
  simp [runs, hsplit, hne]

/-- Rows with a separator between them have the runs of each row, in order. -/
theorem runs_intercalate (hc : sep c) (rows : List (List Char)) :
    runs sep (List.intercalate [c] rows) = rows.flatMap (runs sep) := by
  induction rows with
  | nil => simp
  | cons row rows ih =>
    cases rows with
    | nil => simp
    | cons row' rows =>
      rw [List.intercalate_cons_cons, List.append_assoc, List.singleton_append, runs_append_sep hc, ih]
      rfl

theorem runs_trimEnd (hsep : ∀ c, isBlank c → sep c) (cs : List Char) : runs sep (trimEnd cs) = runs sep cs := by
  have hcut : cs = trimEnd cs ++ (cs.reverse.takeWhile isBlank).reverse := by
    rw [trimEnd, ← List.reverse_append, List.takeWhile_append_dropWhile, List.reverse_reverse]
  conv_rhs => rw [hcut]
  refine (runs_append_right (fun c hc ↦ hsep c ?_) _).symm
  exact List.mem_takeWhile_imp (List.mem_reverse.mp hc)

/-- If blanks are separators, the runs of a text are those between the blanks at its ends. -/
theorem runs_trim (hsep : ∀ c, isBlank c → sep c) (cs : List Char) : runs sep (trim cs) = runs sep cs := by
  rw [trim, runs_trimEnd hsep, trimStart]
  conv_rhs => rw [← List.takeWhile_append_dropWhile (p := isBlank) (l := cs)]
  exact (runs_append_left (fun c hc ↦ hsep c (List.mem_takeWhile_imp hc)) _).symm

/-- A text has no runs if it is blank. -/
theorem runs_eq_nil_iff_trim : runs isBlank cs = [] ↔ trim cs = [] := by
  constructor
  · intro hruns
    have hblank := flatten_runs isBlank cs
    rw [hruns, List.flatten_nil, eq_comm, List.filter_eq_nil_iff] at hblank
    exact trim_eq_nil (by simpa using hblank)
  · intro htrim
    rw [← runs_trim fun _ h ↦ h, htrim, runs_nil]

end ModuleBuild.Text
