import ModuleBuild.Text.ShellWords

/-!
# Quoting

A text is quoted by putting it between apostrophes. An apostrophe in it has to stand outside these: the quote is left,
the apostrophe written in another way (`Escape`), and the quote entered again. Texts that are quoted and put behind one
another, with spaces between them, are read back as they were (`words?_quoteAll`).
-/

namespace ModuleBuild.Text.ShellWords

/-- How an apostrophe is written outside a quote: between double quotes, or behind a backslash. -/
inductive Escape where
  | quotes
  | backslash
  deriving DecidableEq, Repr

/-- Leave the quote, write an apostrophe, and enter the quote again. -/
def Escape.text : Escape → List Char
  | .quotes => ['\'', '"', '\'', '"', '\'']
  | .backslash => ['\'', '\\', '\'', '\'']

/-- What a text becomes between apostrophes; `escape` tells how an apostrophe at a place in it is written. -/
def escaped (escape : Nat → Escape) : List Char → List Char
  | [] => []
  | c :: cs => (if c = '\'' then (escape 0).text else [c]) ++ escaped (fun n ↦ escape (n + 1)) cs

/-- A text between apostrophes. -/
def quote (escape : Nat → Escape) (cs : List Char) : List Char := '\'' :: escaped escape cs ++ ['\'']

/-- Quoted texts with spaces between them; `escape` tells how an apostrophe at a place in one of them is written. -/
def quoteAll (escape : Nat → Nat → Escape) : List (List Char) → List Char
  | [] => []
  | [cs] => quote (escape 0) cs
  | cs :: ds :: rest => quote (escape 0) cs ++ ' ' :: quoteAll (fun n ↦ escape (n + 1)) (ds :: rest)

variable {c : Char} {cs : List Char}

/-- A quoted text is read into the word it stands in. -/
theorem scan_escaped (escape : Nat → Escape) (cs word rest : List Char) :
    scan .single word (escaped escape cs ++ rest) = scan .single (cs.reverse ++ word) rest := by
  induction cs generalizing escape word with
  | nil => rfl
  | cons c cs ih =>
    have hstep (after : List Char) : scan .single word ((if c = '\'' then (escape 0).text else [c]) ++ after) =
        scan .single (c :: word) after := by
      by_cases hc : c = '\''
      · subst hc
        cases escape 0 <;> rfl
      · rw [if_neg hc, List.singleton_append, scan, if_neg hc]
    rw [escaped, List.append_assoc, hstep, ih, List.reverse_cons, List.append_assoc, List.singleton_append]

/-- A quoted text begins a word, which goes on behind it. -/
theorem scan_quote (escape : Nat → Escape) (cs rest : List Char) :
    scan .gap [] (quote escape cs ++ rest) = scan .word cs.reverse rest := by
  have hopen : scan .gap [] (quote escape cs ++ rest) = scan .single [] (escaped escape cs ++ '\'' :: rest) := by
    simp [quote, scan, isSpace]
  rw [hopen, scan_escaped, List.append_nil, scan, if_pos rfl]

/-- Quoted texts with spaces between them are the words. -/
theorem scan_quoteAll (escape : Nat → Nat → Escape) (texts : List (List Char)) :
    scan .gap [] (quoteAll escape texts) = some texts := by
  induction texts generalizing escape with
  | nil => rfl
  | cons cs texts ih =>
    cases texts with
    | nil =>
      have hword := scan_quote (escape 0) cs []
      rw [List.append_nil] at hword
      rw [quoteAll, hword, scan, List.reverse_reverse]
    | cons ds texts =>
      rw [quoteAll, scan_quote, scan, if_pos (by decide), ih, List.reverse_reverse]
      rfl

/-- Texts that are quoted, with spaces between them, are read back. -/
theorem words?_quoteAll (escape : Nat → Nat → Escape) (texts : List String) :
    words? (.ofList (quoteAll escape (texts.map String.toList))) = some texts := by
  rw [words?, String.toList_ofList, scan_quoteAll]
  simp [Function.comp_def]

/-- So they are split into what they were. -/
theorem split_quoteAll (escape : Nat → Nat → Escape) (texts : List String) :
    split (.ofList (quoteAll escape (texts.map String.toList))) = texts := by
  rw [split, words?_quoteAll, Option.getD_some]

/-! ### What quoted texts are made of -/

/-- The characters that quoting brings in. -/
def marks : List Char := ['\'', '"', '\\', ' ']

theorem notMem_quote (hc : c ∉ marks) (escape : Nat → Escape) (h : c ∉ cs) : c ∉ quote escape cs := by
  have hescape : ∀ e : Escape, c ∉ e.text := by
    intro e hmem
    cases e <;> simp_all [Escape.text, marks]
  have hbody : c ∉ escaped escape cs := by
    induction cs generalizing escape with
    | nil => exact List.not_mem_nil
    | cons d cs ih =>
      obtain ⟨hd, hcs⟩ : c ≠ d ∧ c ∉ cs := by simpa using h
      have hrest := ih (fun n ↦ escape (n + 1)) hcs
      rw [escaped, List.mem_append]
      split <;> simp [hescape, hd, hrest]
  simp_all [quote, marks]

/-- A character that is in no text and that quoting does not bring in is not in the quoted texts. -/
theorem notMem_quoteAll (hc : c ∉ marks) (escape : Nat → Nat → Escape) {texts : List (List Char)}
    (h : ∀ cs ∈ texts, c ∉ cs) : c ∉ quoteAll escape texts := by
  induction texts generalizing escape with
  | nil => exact List.not_mem_nil
  | cons cs texts ih =>
    have hcs := notMem_quote hc (escape 0) (h cs List.mem_cons_self)
    cases texts with
    | nil => exact hcs
    | cons ds texts =>
      have hspace : c ≠ ' ' := by
        rintro rfl
        exact hc (by simp [marks])
      have hrest := ih (fun n ↦ escape (n + 1)) fun d hd ↦ h d (List.mem_cons_of_mem _ hd)
      simp [quoteAll, hcs, hspace, hrest]

/-- Quoted texts begin and end with apostrophes. -/
theorem ends_quoteAll (escape : Nat → Nat → Escape) {texts : List (List Char)} (h : texts ≠ []) :
    (quoteAll escape texts).head? = some '\'' ∧ (quoteAll escape texts).getLast? = some '\'' := by
  induction texts generalizing escape with
  | nil => exact absurd rfl h
  | cons cs texts ih =>
    cases texts with
    | nil => exact ⟨rfl, List.getLast?_concat⟩
    | cons ds texts =>
      refine ⟨rfl, ?_⟩
      rw [quoteAll, List.getLast?_append, List.getLast?_cons, (ih _ (by simp)).2]
      rfl

end ModuleBuild.Text.ShellWords
