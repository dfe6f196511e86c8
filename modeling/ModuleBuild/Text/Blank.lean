/-!
# Blank characters

The white space of Unicode, together with the four ASCII information separators. Trimming and
splitting at blanks are defined here on lists of characters.

`runs` cuts a text into its maximal runs of characters outside a class of separators;
`flatten_runs` says that nothing but separators is lost, and `runs_append_sep` that a text may be
cut at any separator.
-/

namespace ModuleBuild.Text

/-- White space: tab to carriage return, the information separators, and Unicode's spaces. -/
def isBlank (c : Char) : Bool :=
  let n := c.toNat
  (9 ≤ n && n ≤ 13) || (28 ≤ n && n ≤ 32) || n == 0x85 || n == 0xA0 || n == 0x1680 ||
    (0x2000 ≤ n && n ≤ 0x200A) || n == 0x2028 || n == 0x2029 || n == 0x202F || n == 0x205F ||
    n == 0x3000

/-- A text without its leading blanks. -/
def trimStart (cs : List Char) : List Char := cs.dropWhile isBlank

/-- A text without its trailing blanks. -/
def trimEnd (cs : List Char) : List Char := (cs.reverse.dropWhile isBlank).reverse

/-- A text without the blanks at either end. -/
def trim (cs : List Char) : List Char := trimEnd (trimStart cs)

/-- The string without the blanks at either end. -/
def trimmed (s : String) : String := .ofList (trim s.toList)

/-- The maximal runs of characters outside the class `sep`, in order. -/
def runs (sep : Char → Bool) (cs : List Char) : List (List Char) :=
  (cs.splitOnP sep).filter (!·.isEmpty)

/-- The words of a text: its maximal runs of characters that are not blank. -/
def words (s : String) : List String := (runs isBlank s.toList).map .ofList

@[simp] theorem runs_nil (sep : Char → Bool) : runs sep [] = [] := by
  simp [runs]

/-- No run is empty. -/
theorem ne_nil_of_mem_runs {sep : Char → Bool} {cs r : List Char} (h : r ∈ runs sep cs) :
    r ≠ [] := by
  simpa [runs] using (List.mem_filter.mp h).2

/-- A text may be cut at any separator. -/
theorem runs_append_sep {sep : Char → Bool} {c : Char} (h : sep c) (as bs : List Char) :
    runs sep (as ++ c :: bs) = runs sep as ++ runs sep bs := by
  simp [runs, List.splitOnP_append_cons as bs h]

/-- The runs hold exactly the characters that are no separators, in order. -/
theorem flatten_runs (sep : Char → Bool) (cs : List Char) :
    (runs sep cs).flatten = cs.filter (fun c ↦ !sep c) := by
  induction cs with
  | nil => simp
  | cons c cs ih =>
    simp only [runs] at ih ⊢
    obtain ⟨r, rs, h⟩ := List.exists_cons_of_ne_nil (List.splitOnP_ne_nil sep cs)
    by_cases hc : sep c
    · simp [List.splitOnP_cons_eq_if_modifyHead, hc, ih]
    · rw [h] at ih
      rw [List.splitOnP_cons_eq_if_modifyHead, h]
      cases r <;> simp_all

end ModuleBuild.Text
