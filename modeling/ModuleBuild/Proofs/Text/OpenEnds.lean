import ModuleBuild.Proofs.Text.ShellWords

/-!
# What a text leaves open

A text is made of pieces: characters outside quotes, characters behind a backslash, and quotes with what stands between
them (`IsPiece`). Where it is not, it ends with a quote that is not closed or a backslash with nothing behind it
(`complete_or_endsOpen`). Only such a text has no shell words (`words?_eq_none_iff`); quoted texts have, and are read
back (`split_undoes_quoting`).
-/

namespace ModuleBuild.Text.ShellWords

/-- What may stand between double quotes: characters that are neither a double quote nor a backslash, and any character
behind a backslash. -/
inductive IsDoubleBody : List Char → Prop where
  | nil : IsDoubleBody []
  | plain {c : Char} {cs : List Char} (hquote : c ≠ '"') (hbackslash : c ≠ '\\') (h : IsDoubleBody cs) :
      IsDoubleBody (c :: cs)
  | escaped (c : Char) {cs : List Char} (h : IsDoubleBody cs) : IsDoubleBody ('\\' :: c :: cs)

/-- A piece of a text, which leaves nothing open. -/
inductive IsPiece : List Char → Prop where
  | plain {c : Char} (h : c ∉ ['\'', '"', '\\']) : IsPiece [c]
  | escaped (c : Char) : IsPiece ['\\', c]
  | single {body : List Char} (h : '\'' ∉ body) : IsPiece ('\'' :: body ++ ['\''])
  | double {body : List Char} (h : IsDoubleBody body) : IsPiece ('"' :: body ++ ['"'])

/-- What a text can leave open at its end. -/
inductive IsOpening : List Char → Prop where
  /-- Between apostrophes. -/
  | single {body : List Char} (h : '\'' ∉ body) : IsOpening ('\'' :: body)
  /-- Between double quotes. -/
  | double {body : List Char} (h : IsDoubleBody body) : IsOpening ('"' :: body)
  /-- Behind a backslash outside quotes. -/
  | escape : IsOpening ['\\']
  /-- Behind a backslash between double quotes. -/
  | doubleEscape {body : List Char} (h : IsDoubleBody body) : IsOpening ('"' :: body ++ ['\\'])

/-- The text is made of pieces. -/
def IsComplete (cs : List Char) : Prop := ∃ pieces : List (List Char), (∀ p ∈ pieces, IsPiece p) ∧ cs = pieces.flatten

/-- The text ends between quotes or behind a backslash. -/
def EndsOpen (cs : List Char) : Prop := ∃ front tail, IsComplete front ∧ IsOpening tail ∧ cs = front ++ tail

variable {cs rest p : List Char} {m : Mode} {w : List Char} {b : Bool}

/-! ### Every text is complete or ends open -/

theorem isComplete_nil : IsComplete [] := ⟨[], by simp, rfl⟩

theorem IsPiece.isComplete_append (hp : IsPiece p) (h : IsComplete rest) : IsComplete (p ++ rest) := by
  obtain ⟨pieces, hpieces, rfl⟩ := h
  exact ⟨p :: pieces, List.forall_mem_cons.mpr ⟨hp, hpieces⟩, rfl⟩

theorem IsPiece.endsOpen_append (hp : IsPiece p) (h : EndsOpen rest) : EndsOpen (p ++ rest) := by
  obtain ⟨front, tail, hfront, htail, rfl⟩ := h
  exact ⟨p ++ front, tail, hp.isComplete_append hfront, htail, (List.append_assoc ..).symm⟩

theorem IsPiece.ne_nil (h : IsPiece p) : p ≠ [] := by
  cases h <;> simp

/-- What follows a double quote goes on to the end of the text, up to a backslash that ends it, or up to the next double
quote. -/
theorem doubleBody_cases (cs : List Char) : IsDoubleBody cs ∨ (∃ body, IsDoubleBody body ∧ cs = body ++ ['\\']) ∨
    ∃ body rest, IsDoubleBody body ∧ cs = body ++ '"' :: rest := by
  induction hlength : cs.length using Nat.strongRecOn generalizing cs with
  | ind n ih =>
    subst hlength
    cases cs with
    | nil => exact .inl .nil
    | cons c cs =>
      by_cases hquote : c = '"'
      · exact .inr (.inr ⟨[], cs, .nil, by rw [hquote]; rfl⟩)
      · by_cases hbackslash : c = '\\'
        · subst hbackslash
          cases cs with
          | nil => exact .inr (.inl ⟨[], .nil, rfl⟩)
          | cons d cs =>
            have hlt : cs.length < ('\\' :: d :: cs).length := by simp only [List.length_cons]; omega
            obtain h | ⟨body, hbody, rfl⟩ | ⟨body, rest, hbody, rfl⟩ := ih cs.length hlt cs rfl
            · exact .inl (.escaped d h)
            · exact .inr (.inl ⟨_, .escaped d hbody, rfl⟩)
            · exact .inr (.inr ⟨_, rest, .escaped d hbody, rfl⟩)
        · obtain h | ⟨body, hbody, rfl⟩ | ⟨body, rest, hbody, rfl⟩ := ih cs.length (by simp) cs rfl
          · exact .inl (.plain hquote hbackslash h)
          · exact .inr (.inl ⟨_, .plain hquote hbackslash hbody, rfl⟩)
          · exact .inr (.inr ⟨_, rest, .plain hquote hbackslash hbody, rfl⟩)

/-- A text that is not empty begins with a piece, or is left open from its beginning. -/
theorem isOpening_or_exists_piece (h : cs ≠ []) : IsOpening cs ∨ ∃ p rest, IsPiece p ∧ cs = p ++ rest := by
  obtain ⟨c, cs, rfl⟩ := List.exists_cons_of_ne_nil h
  by_cases hmark : c ∈ ['\'', '"', '\\']
  · obtain rfl | rfl | rfl : c = '\'' ∨ c = '"' ∨ c = '\\' := by simpa using hmark
    · by_cases hcs : '\'' ∈ cs
      · obtain ⟨body, rest, rfl, hbody⟩ := List.eq_append_cons_of_mem hcs
        exact .inr ⟨_, rest, .single hbody, by simp⟩
      · exact .inl (.single hcs)
    · obtain hbody | ⟨body, hbody, rfl⟩ | ⟨body, rest, hbody, rfl⟩ := doubleBody_cases cs
      · exact .inl (.double hbody)
      · exact .inl (.doubleEscape hbody)
      · exact .inr ⟨_, rest, .double hbody, by simp⟩
    · cases cs with
      | nil => exact .inl .escape
      | cons d cs => exact .inr ⟨_, cs, .escaped d, rfl⟩
  · exact .inr ⟨_, cs, .plain hmark, rfl⟩

theorem complete_or_endsOpen (cs : List Char) : IsComplete cs ∨ EndsOpen cs := by
  induction hlength : cs.length using Nat.strongRecOn generalizing cs with
  | ind n ih =>
    subst hlength
    by_cases hne : cs = []
    · exact .inl (hne ▸ isComplete_nil)
    · obtain hopening | ⟨p, rest, hp, rfl⟩ := isOpening_or_exists_piece hne
      · exact .inr ⟨[], cs, isComplete_nil, hopening, rfl⟩
      · have hpos := List.length_pos_iff.mpr hp.ne_nil
        exact (ih rest.length (by rw [List.length_append]; omega) rest rfl).imp hp.isComplete_append hp.endsOpen_append

/-! ### Scanning pieces -/

/-- Outside quotes, in whatever word, to scan the text fails or succeeds. -/
def Scans (fails : Bool) (cs : List Char) : Prop := ∀ m w, m = .gap ∨ m = .word → (scan m w cs).isNone = fails

theorem scans_nil : Scans false [] := by
  rintro m w (rfl | rfl) <;> rfl

theorem exists_scan_apostrophe (hm : m = .gap ∨ m = .word) (w cs : List Char) :
    ∃ w', scan m w ('\'' :: cs) = scan .single w' cs := by
  rcases hm with rfl | rfl <;> exact ⟨_, rfl⟩

theorem exists_scan_doubleQuote (hm : m = .gap ∨ m = .word) (w cs : List Char) :
    ∃ w', scan m w ('"' :: cs) = scan .double w' cs := by
  rcases hm with rfl | rfl <;> exact ⟨_, rfl⟩

theorem exists_scan_backslash (hm : m = .gap ∨ m = .word) (w cs : List Char) :
    ∃ w', scan m w ('\\' :: cs) = scan .escape w' cs := by
  rcases hm with rfl | rfl <;> exact ⟨_, rfl⟩

theorem scan_single_append (h : '\'' ∉ cs) (w rest : List Char) :
    scan .single w (cs ++ rest) = scan .single (cs.reverse ++ w) rest := by
  induction cs generalizing w with
  | nil => rfl
  | cons c cs ih =>
    obtain ⟨hc, hcs⟩ : '\'' ≠ c ∧ '\'' ∉ cs := by simpa using h
    rw [List.cons_append, scan, if_neg (Ne.symm hc), ih hcs]
    simp

theorem IsDoubleBody.exists_scan (h : IsDoubleBody cs) (w rest : List Char) :
    ∃ w', scan .double w (cs ++ rest) = scan .double w' rest := by
  induction h generalizing w with
  | nil => exact ⟨w, rfl⟩
  | plain hquote hbackslash _ ih =>
    rw [List.cons_append, scan, if_neg hquote, if_neg hbackslash]
    exact ih _
  | escaped c _ ih =>
    rw [List.cons_append, List.cons_append, scan, if_neg (by decide), if_pos rfl, scan]
    split
    · exact ih _
    · exact ih _

/-- A piece does not tell whether scanning fails. -/
theorem IsPiece.scans_append (hp : IsPiece p) (h : Scans b rest) : Scans b (p ++ rest) := by
  intro m w hm
  cases hp with
  | @plain c hc =>
    obtain ⟨hsingle, hdouble, hbackslash⟩ : c ≠ '\'' ∧ c ≠ '"' ∧ c ≠ '\\' := by simpa using hc
    rcases hm with rfl | rfl
    · rw [List.singleton_append, scan, if_neg hsingle, if_neg hdouble, if_neg hbackslash]
      split
      · exact h .gap [] (.inl rfl)
      · exact h .word [c] (.inr rfl)
    · rw [List.singleton_append, scan, if_neg hsingle, if_neg hdouble, if_neg hbackslash]
      split
      · rw [Option.isNone_map]
        exact h .gap [] (.inl rfl)
      · exact h .word (c :: w) (.inr rfl)
  | escaped c =>
    obtain ⟨w', hw'⟩ := exists_scan_backslash hm w (c :: rest)
    rw [List.cons_append, List.singleton_append, hw', scan]
    exact h .word (c :: w') (.inr rfl)
  | @single body hbody =>
    obtain ⟨w', hw'⟩ := exists_scan_apostrophe hm w (body ++ '\'' :: rest)
    have hcut : '\'' :: body ++ ['\''] ++ rest = '\'' :: (body ++ '\'' :: rest) := by simp
    rw [hcut, hw', scan_single_append hbody, scan, if_pos rfl]
    exact h .word _ (.inr rfl)
  | @double body hbody =>
    obtain ⟨w', hw'⟩ := exists_scan_doubleQuote hm w (body ++ '"' :: rest)
    obtain ⟨w'', hw''⟩ := hbody.exists_scan w' ('"' :: rest)
    have hcut : '"' :: body ++ ['"'] ++ rest = '"' :: (body ++ '"' :: rest) := by simp
    rw [hcut, hw', hw'', scan, if_pos rfl]
    exact h .word w'' (.inr rfl)

theorem IsComplete.scans_append (hcs : IsComplete cs) (h : Scans b rest) : Scans b (cs ++ rest) := by
  obtain ⟨pieces, hpieces, rfl⟩ := hcs
  induction pieces with
  | nil => exact h
  | cons p pieces ih =>
    obtain ⟨hp, hpieces⟩ := List.forall_mem_cons.mp hpieces
    rw [List.flatten_cons, List.append_assoc]
    exact hp.scans_append (ih hpieces)

/-- What is left open makes scanning fail. -/
theorem IsOpening.scans (h : IsOpening cs) : Scans true cs := by
  intro m w hm
  cases h with
  | @single body hbody =>
    obtain ⟨w', hw'⟩ := exists_scan_apostrophe hm w body
    have hend := scan_single_append hbody w' []
    rw [List.append_nil] at hend
    rw [hw', hend]
    rfl
  | @double body hbody =>
    obtain ⟨w', hw'⟩ := exists_scan_doubleQuote hm w body
    obtain ⟨w'', hend⟩ := hbody.exists_scan w' []
    rw [List.append_nil] at hend
    rw [hw', hend]
    rfl
  | escape =>
    obtain ⟨w', hw'⟩ := exists_scan_backslash hm w []
    rw [hw']
    rfl
  | @doubleEscape body hbody =>
    obtain ⟨w', hw'⟩ := exists_scan_doubleQuote hm w (body ++ ['\\'])
    obtain ⟨w'', hend⟩ := hbody.exists_scan w' ['\\']
    rw [List.cons_append, hw', hend]
    rfl

/-- Texts that end open are those without shell words. -/
theorem words?_eq_none_iff {s : String} : words? s = none ↔ EndsOpen s.toList := by
  rw [words?, Option.map_eq_none_iff]
  constructor
  · intro hscan
    refine (complete_or_endsOpen s.toList).resolve_left fun hcomplete ↦ ?_
    have hfails := hcomplete.scans_append scans_nil .gap [] (.inl rfl)
    rw [List.append_nil, hscan] at hfails
    cases hfails
  · rintro ⟨front, tail, hfront, htail, hcs⟩
    rw [hcs, ← Option.isNone_iff_eq_none]
    exact hfront.scans_append htail.scans .gap [] (.inl rfl)

/-! ### Quoted texts -/

/-- A text between apostrophes. Those in it stand outside, between double quotes. -/
def apostrophized (s : String) : String := .ofList (quote (fun _ ↦ .quotes) s.toList)

/-- Texts between apostrophes, with a space between each and the next. -/
theorem intercalate_apostrophized (texts : List String) :
    " ".intercalate (texts.map apostrophized) = .ofList (quoteAll (fun _ _ ↦ .quotes) (texts.map String.toList)) := by
  rw [← String.toList_inj, String.toList_intercalate, String.toList_ofList]
  induction texts with
  | nil => rfl
  | cons s texts ih =>
    cases texts with
    | nil => simp [quoteAll, apostrophized]
    | cons s' texts =>
      simp only [List.map_cons, List.intercalate_cons_cons, quoteAll] at ih ⊢
      rw [ih]
      simp [apostrophized]

/-- Texts between apostrophes are read back as shell words. Of all texts exactly those are cut at their blanks instead
that end between quotes or behind a backslash. -/
theorem split_undoes_quoting :
    (∀ texts : List String, words? (" ".intercalate (texts.map apostrophized)) = some texts ∧
        split (" ".intercalate (texts.map apostrophized)) = texts) ∧
      ∀ s : String, (words? s = none ↔ EndsOpen s.toList) ∧ (EndsOpen s.toList → split s = words s) := by
  refine ⟨fun texts ↦ ?_, fun s ↦ ⟨words?_eq_none_iff, fun hopen ↦ ?_⟩⟩
  · rw [intercalate_apostrophized]
    exact ⟨words?_quoteAll _ texts, split_quoteAll _ texts⟩
  · rw [split, words?_eq_none_iff.mpr hopen, Option.getD_none]

/-- A flag with a double quote that is not closed, and another flag behind it. -/
def unclosed : String := "-DX=\"oops -O2"

/-- Both are cut off at the blank. -/
theorem split_undoes_quoting_of_unclosed :
    EndsOpen unclosed.toList ∧ split unclosed = ["-DX=\"oops", "-O2"] := by
  have hnone : words? unclosed = none := by decide +kernel
  have hwords : words unclosed = ["-DX=\"oops", "-O2"] := by decide +kernel
  obtain ⟨hiff, hsplit⟩ := split_undoes_quoting.2 unclosed
  have hopen := hiff.mp hnone
  exact ⟨hopen, (hsplit hopen).trans hwords⟩

end ModuleBuild.Text.ShellWords
