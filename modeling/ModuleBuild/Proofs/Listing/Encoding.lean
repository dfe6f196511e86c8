import ModuleBuild.Listing.Rules
import Mathlib.Data.List.Chain
import Mathlib.Data.List.TakeWhile
import Mathlib.Tactic.Conv

/-!
# Names as listings write them

A compiler writes a name with a backslash before each space and with dollar signs doubled (`escape`), and
parts names by spaces and by line breaks that a backslash hides. However it does, the names are read back,
each as it was (`names_text`).
-/

namespace ModuleBuild.Listing

/-- A name as listings write it. -/
def escape (n : List Char) : List Char :=
  n.flatMap fun c ↦ if c = ' ' then ['\\', ' '] else if c = '$' then ['$', '$'] else [c]

/-- A name that listings can hold: its only blanks are spaces, none of them at its end, and it has none of
the characters with a meaning of their own for which there is no other spelling. -/
structure IsListable (n : List Char) : Prop where
  ne_nil : n ≠ []
  plain : ∀ c ∈ n, c ≠ '#' ∧ c ≠ ':' ∧ c ≠ '\\' ∧ (Text.isBlank c → c = ' ')
  last_ne : n.getLast? ≠ some ' '

instance (n : List Char) : Decidable (IsListable n) :=
  -- the characters of the name are gone through, not all characters
  have : Decidable (∀ c ∈ n, c ≠ '#' ∧ c ≠ ':' ∧ c ≠ '\\' ∧ (Text.isBlank c → c = ' ')) :=
    List.decidableBAll _ n
  decidable_of_iff (_ ∧ _ ∧ _) ⟨fun ⟨hn, hp, hl⟩ ↦ ⟨hn, hp, hl⟩, fun ⟨hn, hp, hl⟩ ↦ ⟨hn, hp, hl⟩⟩

/-- What a listing is made of behind the colon of its rule. -/
inductive Item where
  | space
  /-- A backslash and the line feed that it hides. -/
  | wrap
  | name (n : List Char)

namespace Item

/-- An item as it is written. -/
def text : Item → List Char
  | space => [' ']
  | wrap => ['\\', '\n']
  | name n => escape n

/-- The name that an item is. -/
def name? : Item → Option (List Char)
  | name n => some n
  | _ => none

/-- What is left of an item when lines are joined. -/
def joined : Item → Item
  | wrap => space
  | i => i

end Item

/-- Items as they are written, one after another. -/
def text (is : List Item) : List Char := is.flatMap Item.text

/-- The names among items. -/
def namesOf (is : List Item) : List (List Char) := is.filterMap Item.name?

/-- No two names touch. -/
def IsSpaced (is : List Item) : Prop := is.IsChain fun i j ↦ i.name? = none ∨ j.name? = none

/-- All names are such as listings can hold. -/
def AreListable (is : List Item) : Prop := ∀ n ∈ namesOf is, IsListable n

variable {n cs ds : List Char} {is is' : List Item} {i : Item}

@[simp] theorem text_nil : text [] = [] := rfl

@[simp] theorem text_cons (i : Item) (is : List Item) : text (i :: is) = i.text ++ text is := rfl

@[simp] theorem text_append (is is' : List Item) : text (is ++ is') = text is ++ text is' :=
  List.flatMap_append

@[simp] theorem namesOf_nil : namesOf [] = [] := rfl

@[simp] theorem namesOf_space (is : List Item) : namesOf (.space :: is) = namesOf is := rfl

@[simp] theorem namesOf_wrap (is : List Item) : namesOf (.wrap :: is) = namesOf is := rfl

@[simp] theorem namesOf_name (n : List Char) (is : List Item) :
    namesOf (.name n :: is) = n :: namesOf is := rfl

@[simp] theorem namesOf_append (is is' : List Item) :
    namesOf (is ++ is') = namesOf is ++ namesOf is' := List.filterMap_append

/-- Joining lines takes no name away. -/
theorem namesOf_joined (is : List Item) : namesOf (is.map .joined) = namesOf is := by
  induction is with
  | nil => rfl
  | cons i is ih => cases i <;> simp [Item.joined, ih]

theorem IsSpaced.joined (h : IsSpaced is) : IsSpaced (is.map .joined) := by
  refine List.isChain_map_of_isChain _ (fun i j hij ↦ ?_) h
  cases i <;> cases j <;> simp_all [Item.joined, Item.name?]

theorem wrap_notMem_joined (is : List Item) : Item.wrap ∉ is.map .joined := by
  rintro h
  obtain ⟨i, -, hi⟩ := List.mem_map.mp h
  cases i <;> simp [Item.joined] at hi

/-! ### Escaping -/

@[simp] theorem escape_nil : escape [] = [] := rfl

theorem escape_space (n : List Char) : escape (' ' :: n) = '\\' :: ' ' :: escape n := rfl

theorem escape_dollar (n : List Char) : escape ('$' :: n) = '$' :: '$' :: escape n := rfl

theorem escape_cons {c : Char} (hs : c ≠ ' ') (hd : c ≠ '$') (n : List Char) :
    escape (c :: n) = c :: escape n := by
  simp [escape, hs, hd]

theorem escape_append (n m : List Char) : escape (n ++ m) = escape n ++ escape m := List.flatMap_append

/-- What is written for a name is the name's own, or a backslash. -/
theorem mem_of_mem_escape {c : Char} (h : c ∈ escape n) : c ∈ n ∨ c = '\\' := by
  obtain ⟨d, hd, hc⟩ := List.mem_flatMap.mp h
  split at hc
  · next hs => grind
  · split at hc <;> grind

/-- An escaped name is read back. -/
theorem undouble_unescape_escape (h : '\\' ∉ n) : undouble (unescape (escape n)) = n := by
  have hplain {c : Char} (hb : c ≠ '\\') (cs : List Char) : unescape (c :: cs) = c :: unescape cs := by
    rw [unescape]
    simp [hb]
  have hsingle {c : Char} (hd : c ≠ '$') (cs : List Char) : undouble (c :: cs) = c :: undouble cs := by
    rw [undouble]
    simp [hd]
  induction n with
  | nil => rfl
  | cons c n ih =>
    obtain ⟨hc, hn⟩ : '\\' ≠ c ∧ '\\' ∉ n := by simpa using h
    by_cases hs : c = ' '
    · subst hs
      rw [escape_space, unescape, hsingle (by decide), ih hn]
    · by_cases hd : c = '$'
      · subst hd
        rw [escape_dollar, hplain (by decide), hplain (by decide), undouble, ih hn]
      · rw [escape_cons hs hd, hplain (Ne.symm hc), hsingle hd, ih hn]

/-- An escaped name begins with what is no blank. -/
theorem IsListable.exists_cons (h : IsListable n) :
    ∃ c cs, escape n = c :: cs ∧ Text.isBlank c = false := by
  obtain ⟨c, n, rfl⟩ := List.exists_cons_of_ne_nil h.ne_nil
  by_cases hs : c = ' '
  · exact ⟨'\\', _, hs ▸ escape_space n, rfl⟩
  · by_cases hd : c = '$'
    · subst hd
      exact ⟨_, _, escape_dollar n, rfl⟩
    · refine ⟨_, _, escape_cons hs hd n, ?_⟩
      rw [← Bool.not_eq_true]
      exact fun hb ↦ hs ((h.plain c List.mem_cons_self).2.2.2 hb)

/-- An escaped name ends with what is no blank and no backslash. -/
theorem IsListable.exists_concat (h : IsListable n) :
    ∃ cs c, escape n = cs ++ [c] ∧ Text.isBlank c = false ∧ c ≠ '\\' := by
  obtain ⟨n, c, rfl⟩ := List.eq_nil_or_concat' n |>.resolve_left h.ne_nil
  have hs : c ≠ ' ' := fun hs ↦ h.last_ne (by simp [hs])
  obtain ⟨-, -, hb, hblank⟩ := h.plain c (by simp)
  by_cases hd : c = '$'
  · refine ⟨escape n ++ ['$'], '$', ?_, rfl, by decide⟩
    rw [hd, escape_append, escape_dollar, escape_nil, List.append_assoc]
    rfl
  · refine ⟨escape n, c, by rw [escape_append, escape_cons hs hd, escape_nil], ?_, hb⟩
    rw [← Bool.not_eq_true]
    exact fun hblank' ↦ hs (hblank hblank')

/-! ### Blanks around names -/

/-- A blank in front changes no names. -/
theorem names_cons_blank {c : Char} (h : Text.isBlank c) (cs : List Char) : names (c :: cs) = names cs := by
  rw [names, names, Text.trim, Text.trim, Text.trimStart, List.dropWhile_cons_of_pos h]
  rfl

/-- A blank at the end changes no names. -/
theorem names_concat_blank {c : Char} (h : Text.isBlank c) (cs : List Char) :
    names (cs ++ [c]) = names cs := by
  have htrim : Text.trim (cs ++ [c]) = Text.trim cs := by
    unfold Text.trim Text.trimStart
    rw [List.dropWhile_append]
    split
    · next hall =>
      rw [List.isEmpty_iff.mp hall, List.dropWhile_cons_of_pos h]
      rfl
    · rw [Text.trimEnd, Text.trimEnd, List.reverse_append, List.reverse_singleton, List.singleton_append,
        List.dropWhile_cons_of_pos h]
  rw [names, names, htrim]

theorem names_append_blanks (h : ∀ c ∈ ds, Text.isBlank c) : names (cs ++ ds) = names cs := by
  induction ds using List.reverseRecOn with
  | nil => rw [List.append_nil]
  | append_singleton ds d ih =>
    rw [← List.append_assoc, names_concat_blank (h d (by simp))]
    exact ih fun c hc ↦ h c (List.mem_append_left _ hc)

/-- Blanks that are taken away in front change no names. -/
theorem names_dropWhile {p : Char → Bool} (h : ∀ c, p c → Text.isBlank c) (cs : List Char) :
    names (cs.dropWhile p) = names cs := by
  induction cs with
  | nil => rfl
  | cons c cs ih =>
    rw [List.dropWhile_cons]
    split
    · next hc => rw [ih, names_cons_blank (h c hc)]
    · rfl

/-- Blanks that are taken away at the end change no names. -/
theorem names_dropWhile_reverse {p : Char → Bool} (h : ∀ c, p c → Text.isBlank c) (cs : List Char) :
    names (cs.reverse.dropWhile p).reverse = names cs := by
  have hcut : cs = (cs.reverse.dropWhile p).reverse ++ (cs.reverse.takeWhile p).reverse := by
    rw [← List.reverse_append, List.takeWhile_append_dropWhile, List.reverse_reverse]
  conv_rhs => rw [hcut]
  refine (names_append_blanks fun c hc ↦ h c ?_).symm
  exact List.mem_takeWhile_imp (List.mem_reverse.mp hc)

/-! ### Names among items -/

theorem pieces_ne_nil (previous : Char) (inGap : Bool) (cs : List Char) :
    pieces previous inGap cs ≠ [] := by
  induction cs generalizing previous inGap with
  | nil => simp [pieces]
  | cons c cs ih =>
    rw [pieces]
    split
    · split
      · exact ih c true
      · simp
    · split <;> simp

/-- A character that is no gap joins the piece behind it. -/
theorem pieces_cons {previous c : Char} {inGap : Bool}
    (h : (Text.isBlank c && (inGap || previous != '\\')) = false) (cs : List Char) :
    pieces previous inGap (c :: cs) = (pieces c false cs).modifyHead (c :: ·) := by
  rw [pieces, h]
  obtain ⟨p, ps, hps⟩ := List.exists_cons_of_ne_nil (pieces_ne_nil c false cs)
  simp [hps]

/-- An escaped name joins the piece behind it as a whole. -/
theorem pieces_escape {previous : Char} (h : ∀ c ∈ n, c ≠ '\\' ∧ (Text.isBlank c → c = ' '))
    (hprevious : previous ≠ '\\') (cs : List Char) : ∃ last, last ≠ '\\' ∧
      pieces previous false (escape n ++ cs) = (pieces last false cs).modifyHead (escape n ++ ·) := by
  induction n generalizing previous with
  | nil =>
    refine ⟨previous, hprevious, ?_⟩
    rw [escape_nil, List.nil_append]
    exact (congrFun List.modifyHead_id _).symm
  | cons c n ih =>
    obtain ⟨hb, hblank⟩ := h c List.mem_cons_self
    obtain ⟨last, hlast, hrest⟩ := ih (fun d hd ↦ h d (List.mem_cons_of_mem _ hd)) hb
    refine ⟨last, hlast, ?_⟩
    by_cases hs : c = ' '
    · subst hs
      rw [escape_space, List.cons_append, List.cons_append, pieces_cons (by rfl), pieces_cons (by rfl),
        hrest, List.modifyHead_modifyHead, List.modifyHead_modifyHead]
      rfl
    · have hc : Text.isBlank c = false := by
        rw [← Bool.not_eq_true]
        exact fun hc ↦ hs (hblank hc)
      by_cases hd : c = '$'
      · subst hd
        rw [escape_dollar, List.cons_append, List.cons_append, pieces_cons (by rfl), pieces_cons (by rfl),
          hrest, List.modifyHead_modifyHead, List.modifyHead_modifyHead]
        rfl
      · rw [escape_cons hs hd, List.cons_append, pieces_cons (by simp [hc]), hrest,
          List.modifyHead_modifyHead]
        rfl

/-- The pieces of items on one line: in a gap, escaped names alone come; behind a name, first the end of
its piece. -/
theorem pieces_text (hwrap : Item.wrap ∉ is) (hspaced : IsSpaced is) (hnames : AreListable is)
    {previous : Char} (hprevious : previous ≠ '\\') :
    (pieces previous true (text is)).filter (!·.isEmpty) = (namesOf is).map escape ∧
      ((∀ i ∈ is.head?, i.name? = none) → ∃ ps, pieces previous false (text is) = [] :: ps ∧
        ps.filter (!·.isEmpty) = (namesOf is).map escape) := by
  induction is generalizing previous with
  | nil => exact ⟨rfl, fun _ ↦ ⟨[], rfl, rfl⟩⟩
  | cons i is ih =>
    have hwrap' : Item.wrap ∉ is := fun h ↦ hwrap (List.mem_cons_of_mem _ h)
    have hspaced' := hspaced.tail
    cases i with
    | wrap => simp at hwrap
    | space =>
      obtain ⟨hgap, -⟩ := ih hwrap' hspaced' hnames (show ' ' ≠ '\\' by decide)
      refine ⟨hgap, fun _ ↦ ⟨pieces ' ' true (text is), ?_, hgap⟩⟩
      have hopens : (Text.isBlank ' ' && (false || previous != '\\')) = true := by
        simpa [Text.isBlank] using hprevious
      rw [text_cons, Item.text, List.singleton_append, pieces, hopens]
      rfl
    | name n =>
      have hn := hnames n (by simp)
      obtain ⟨c, cs, hescape, hc⟩ := hn.exists_cons
      obtain ⟨last, hlast, hpieces⟩ := pieces_escape
        (fun c hc ↦ (hn.plain c hc).2.2) hprevious (text is)
      have hhead : ∀ i ∈ is.head?, i.name? = none := by
        intro j hj
        obtain ⟨is', rfl⟩ := List.head?_eq_some_iff.mp hj
        simpa [Item.name?] using (List.isChain_cons_cons.mp hspaced).1
      obtain ⟨ps, hps, hfilter⟩ := (ih hwrap' hspaced'
        (fun m hm ↦ hnames m (List.mem_cons_of_mem _ hm)) hlast).2 hhead
      refine ⟨?_, fun hhead ↦ by simp [Item.name?] at hhead⟩
      have hgap : pieces previous true (escape n ++ text is) =
          pieces previous false (escape n ++ text is) := by
        rw [hescape, List.cons_append, pieces_cons (by simp [hc]), pieces_cons (by simp [hc])]
      rw [text_cons, Item.text, hgap, hpieces, hps]
      simp [hescape, hfilter]

/-- Names on one line between whose ends there are no blanks are read back. -/
theorem names_text_of_ends (hwrap : Item.wrap ∉ is) (hspaced : IsSpaced is) (hnames : AreListable is)
    (hfirst : ∃ c cs, text is = c :: cs ∧ Text.isBlank c = false)
    (hlast : ∃ cs c, text is = cs ++ [c] ∧ Text.isBlank c = false) : names (text is) = namesOf is := by
  obtain ⟨c, cs, hcons, hc⟩ := hfirst
  obtain ⟨ds, d, hconcat, hd⟩ := hlast
  have htrim : Text.trim (text is) = text is := by
    rw [Text.trim, Text.trimStart, hcons, List.dropWhile_cons_of_neg (by simp [hc]), ← hcons, hconcat,
      Text.trimEnd, List.reverse_append, List.reverse_singleton, List.singleton_append,
      List.dropWhile_cons_of_neg (by simp [hd]), List.reverse_cons, List.reverse_reverse]
  have hgap : pieces '\x00' false (text is) = pieces '\x00' true (text is) := by
    rw [hcons, pieces_cons (by simp [hc]), pieces_cons (by simp [hc])]
  rw [names, htrim, hgap, (pieces_text hwrap hspaced hnames (by decide)).1, List.map_map]
  conv_rhs => rw [← List.map_id (namesOf is)]
  refine List.map_congr_left fun n hn ↦ undouble_unescape_escape fun hb ↦ ?_
  exact ((hnames n hn).plain _ hb).2.2.1 rfl

/-- Names on one line are read back. -/
theorem names_text (hwrap : Item.wrap ∉ is) (hspaced : IsSpaced is) (hnames : AreListable is) :
    names (text is) = namesOf is := by
  have hblank : Text.isBlank ' ' := rfl
  -- blanks at the end come to nothing, then those in front
  induction is using List.reverseRecOn with
  | nil => rfl
  | append_singleton is i ih =>
    cases i with
    | wrap => simp at hwrap
    | space =>
      rw [text_append, text_cons, text_nil, List.append_nil, Item.text, names_concat_blank hblank,
        ih (fun h ↦ hwrap (List.mem_append_left _ h)) hspaced.left_of_append
          fun m hm ↦ hnames m (by simp [hm])]
      simp
    | name n =>
      clear ih
      have hn := hnames n (by simp)
      obtain ⟨ds, d, hescape, hd, -⟩ := hn.exists_concat
      induction is with
      | nil =>
        refine names_text_of_ends hwrap hspaced hnames ?_ ⟨ds, d, by simpa [Item.text] using hescape, hd⟩
        simpa [Item.text] using hn.exists_cons
      | cons i is ih =>
        cases i with
        | wrap => simp at hwrap
        | space =>
          rw [List.cons_append, text_cons, Item.text, List.singleton_append, names_cons_blank hblank,
            ih (fun h ↦ hwrap (List.mem_cons_of_mem _ h)) hspaced.tail hnames]
          rfl
        | name m =>
          obtain ⟨c, cs, hm, hc⟩ := (hnames m (by simp)).exists_cons
          refine names_text_of_ends hwrap hspaced hnames ⟨c, cs ++ text (is ++ [.name n]), ?_, hc⟩
            ⟨escape m ++ (text is ++ ds), d, ?_, hd⟩
          · simp [Item.text, hm]
          · simp [Item.text, hescape]

end ModuleBuild.Listing
