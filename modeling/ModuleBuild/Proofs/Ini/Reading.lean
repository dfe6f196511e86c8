import ModuleBuild.Ini.Reader
import ModuleBuild.Proofs.Table
import ModuleBuild.Proofs.Text.Blank
import ModuleBuild.Proofs.Text.Lines

/-!
# What is written is read

Reading a line that says something hangs neither on its number nor on how it is spelled (`State.Reads`), and lines are
read one after another (`State.ReadsAll`). An entry is a key and a value, which may be folded: the rows of a value
behind the first are indented. A section that is written as a header and entries is read as the table of those values
(`State.readsAll_section`).
-/

namespace ModuleBuild

namespace Text

/-- Texts in lower case are empty only if they were before. -/
theorem lowercase_ne_empty {s : String} (h : s ≠ "") : lowercase s ≠ "" := by
  have hchar (c : Char) : lowerChar c ≠ [] := by
    unfold lowerChar
    dsimp only
    split
    · simp
    · split <;> simp
  have hafter (before : List Char) (c : Char) (cs : List Char) : lowerAfter before (c :: cs) ≠ [] := by
    rw [lowerAfter]
    by_cases hc : c = 'Σ' <;> simp [hc, hchar c]
  obtain ⟨c, cs, hs⟩ : ∃ c cs, s.toList = c :: cs := List.exists_cons_of_ne_nil (by simpa using h)
  intro hempty
  have htext := congrArg String.toList hempty
  rw [lowercase, String.toList_ofList, hs] at htext
  exact hafter [] c cs htext

/-- Letters of the alphabet that are not upper-case stay as they are, and so do the characters between them. -/
theorem lowerChar_eq_self {c : Char} (h : c.toNat < 65 ∨ 90 < c.toNat ∧ c.toNat < 192) : lowerChar c = [c] := by
  have hruns : ∀ r ∈ caseRuns.toList, r.first = 65 ∧ r.last = 90 ∨ 192 ≤ r.first := by decide +kernel
  have hnone : caseRuns.find? (fun r ↦
      r.first ≤ c.toNat && c.toNat ≤ r.last && (c.toNat - r.first) % r.step == 0) = none := by
    refine Array.find?_eq_none.mpr fun r hr hfound ↦ ?_
    rw [Bool.and_eq_true, Bool.and_eq_true, decide_eq_true_eq, decide_eq_true_eq] at hfound
    have hrun := hruns r (Array.mem_def.mp hr)
    omega
  unfold lowerChar
  dsimp only
  rw [if_neg (by omega), hnone]

/-- A text without upper-case letters, or letters that are not of the alphabet, stays as it is. -/
theorem lowercase_eq_self {s : String} (h : ∀ c ∈ s.toList, c.toNat < 65 ∨ 90 < c.toNat ∧ c.toNat < 192) :
    lowercase s = s := by
  have hafter (before cs : List Char) (h : ∀ c ∈ cs, c.toNat < 65 ∨ 90 < c.toNat ∧ c.toNat < 192) :
      lowerAfter before cs = cs := by
    induction cs generalizing before with
    | nil => rfl
    | cons c cs ih =>
      obtain ⟨hc, hcs⟩ := List.forall_mem_cons.mp h
      have hsigma : c ≠ 'Σ' := by
        rintro rfl
        revert hc
        decide
      rw [lowerAfter, if_neg hsigma, lowerChar_eq_self hc, ih _ hcs, List.singleton_append]
  rw [lowercase, hafter [] _ h, String.ofList_toList]

end Text

namespace Ini

namespace Document

@[simp] theorem options_setOptions (d : Document) (name : String) (options : Options) :
    (d.setOptions name options).options name = options := by
  by_cases hname : name = defaultSection <;> simp [setOptions, Document.options, hname]

@[simp] theorem setOptions_setOptions (d : Document) (name : String) (options options' : Options) :
    (d.setOptions name options).setOptions name options' = d.setOptions name options' := by
  by_cases hname : name = defaultSection <;> simp [setOptions, hname]

end Document

namespace State

variable {st st' st'' : State} {line : Line} {ls ls' : List Line}

/-- Reading the line leads to the state, whatever its number and however it is spelled. -/
def Reads (st : State) (line : Line) (st' : State) : Prop :=
  ∀ number l, Line.ofChars l = line → st.read number l = .ok st'

/-- Reading the lines one after another leads to the state. -/
inductive ReadsAll : State → List Line → State → Prop where
  | nil {st : State} : ReadsAll st [] st
  | cons {st st' st'' : State} {line : Line} {ls : List Line} (head : st.Reads line st')
      (rest : ReadsAll st' ls st'') : ReadsAll st (line :: ls) st''

theorem ReadsAll.append (h : ReadsAll st ls st') (h' : ReadsAll st' ls' st'') : ReadsAll st (ls ++ ls') st'' := by
  induction h with
  | nil => exact h'
  | cons head _ ih => exact .cons head (ih h')

theorem ReadsAll.readAll_eq {texts : List (List Char)} (h : ReadsAll st (texts.map Line.ofChars) st') (number : Nat) :
    st.readAll number texts = .ok st' := by
  induction texts generalizing st number with
  | nil => cases h; rfl
  | cons l texts ih =>
    cases h with
    | cons head rest =>
      rw [readAll, head number l rfl]
      exact ih rest (number + 1)

/-! ### One line -/

theorem reads_blank : st.Reads .blank (st.continueValue "") := by
  intro number l hl
  rw [read, hl]

theorem reads_continuation {indent : Nat} (hopen : st.isOpen) (hindent : st.indent < indent) (content : List Char) :
    st.Reads (.text indent content) (st.continueValue (.ofList content)) := by
  intro number l hl
  rw [read, hl]
  simp [hopen, hindent]

/-- A header that is not indented opens a section that is new. -/
theorem reads_header {content : List Char} {name : String} (hcontent : Statement.ofText content = .header name)
    (hname : name ≠ defaultSection) (hnew : st.document.hasSection name = false) :
    st.Reads (.text 0 content) { st with
      document := st.document.setOptions name .empty, current? := some name, option? := none, indent := 0 } := by
  intro number l hl
  rw [read, hl]
  simp [hcontent, openSection, hname, hnew]

/-- An option that is not indented goes to the section, under its name in lower case. -/
theorem reads_option {content : List Char} {name option value : String}
    (hcontent : Statement.ofText content = .option option value) (hcurrent : st.current? = some name)
    (hoption : option ≠ "")
    (hnew : (st.document.options name).contains (Text.lowercase option) = false) :
    st.Reads (.text 0 content) { st with
      document := st.document.setOptions name
        ((st.document.options name).insert (Text.lowercase option) [value])
      option? := some (Text.lowercase option), indent := 0 } := by
  intro number l hl
  rw [read, hl]
  simp [hcontent, hcurrent, openOption, hoption, hnew, Text.lowercase_ne_empty hoption]

end State

/-! ### Entries -/

/-- The text may stand in front of a delimiter: it is not taken for anything else. -/
structure IsKey (key : List Char) : Prop where
  ne_nil : key ≠ []
  plain : ∀ c ∈ key, Text.isBlank c = false ∧ isDelimiter c = false
  first : ∀ c ∈ key.head?, c ≠ '[' ∧ isCommentMark c = false

instance (key : List Char) : Decidable (IsKey key) :=
  have : Decidable (∀ c ∈ key, Text.isBlank c = false ∧ isDelimiter c = false) := List.decidableBAll _ _
  have : Decidable (∀ c ∈ key.head?, c ≠ '[' ∧ isCommentMark c = false) := Option.decidableForallMem _
  decidable_of_iff (_ ∧ _ ∧ _) ⟨fun ⟨hn, hp, hf⟩ ↦ ⟨hn, hp, hf⟩, fun ⟨hn, hp, hf⟩ ↦ ⟨hn, hp, hf⟩⟩

/-- Behind each line feed the next row is indented. -/
def isFolded : List Char → Bool
  | [] => true
  | c :: cs => (c != '\n' || cs.head?.any fun d ↦ Text.isBlank d && d != '\n') && isFolded cs

/-- The row begins with a comment mark. -/
def opensComment (row : List Char) : Bool := (Text.trimStart row).head?.any isCommentMark

/-- An option as it is written. -/
structure Entry where
  key : String
  value : List Char

namespace Entry

/-- The key, a delimiter, and the value. -/
def text (e : Entry) : List Char := e.key.toList ++ ' ' :: '=' :: ' ' :: e.value

/-- The name of the option. -/
def option (e : Entry) : String := Text.lowercase e.key

/-- The lines of the value as they are kept, the last of them first. -/
def lines (e : Entry) : List String := ((e.value.splitOn '\n').map fun row ↦ .ofList (Text.trim row)).reverse

/-- The entry can be read: its key is one, and the rows of its value behind the first are indented and no comments. -/
structure IsReadable (e : Entry) : Prop where
  key : IsKey e.key.toList
  folded : isFolded e.value
  uncommented : ∀ row ∈ (e.value.splitOn '\n').tail, opensComment row = false

end Entry

theorem isFolded_of_notMem {cs : List Char} (h : '\n' ∉ cs) : isFolded cs := by
  induction cs with
  | nil => rfl
  | cons c cs ih =>
    obtain ⟨hc, hcs⟩ : '\n' ≠ c ∧ '\n' ∉ cs := by simpa using h
    simp [isFolded, Ne.symm hc, ih hcs]

theorem isFolded_append {cs ds : List Char} (h : isFolded cs) (h' : isFolded ds) : isFolded (cs ++ ds) := by
  induction cs with
  | nil => exact h'
  | cons c cs ih =>
    obtain ⟨hc, hcs⟩ := Bool.and_eq_true_iff.mp h
    rw [List.cons_append, isFolded, ih hcs, Bool.and_true]
    cases cs with
    | nil => simpa using Or.inl (by simpa using hc)
    | cons d cs => exact hc

/-- The rows of a folded text behind the first begin with a blank. -/
theorem indented_of_isFolded {cs row : List Char} (h : isFolded cs) (hrow : row ∈ (cs.splitOn '\n').tail) :
    row.head?.any Text.isBlank := by
  induction cs with
  | nil => simp at hrow
  | cons c cs ih =>
    obtain ⟨hc, hcs⟩ := Bool.and_eq_true_iff.mp h
    rw [List.splitOn_cons_eq_if_modifyHead] at hrow
    by_cases hfeed : c = '\n'
    · -- the next row begins with the character behind the line feed
      cases cs with
      | nil => simp [hfeed] at hc
      | cons d cs =>
        obtain ⟨hd, hline⟩ : Text.isBlank d ∧ d ≠ '\n' := by simpa [hfeed] using hc
        obtain ⟨first, rows, hsplit⟩ := List.exists_cons_of_ne_nil (List.splitOn_ne_nil '\n' cs)
        have hrows : (d :: cs).splitOn '\n' = (d :: first) :: rows := by
          rw [List.splitOn_cons_eq_if_modifyHead, if_neg (by simpa using hline), hsplit, List.modifyHead_cons]
        rw [if_pos (by simpa using hfeed), List.tail_cons, hrows] at hrow
        rcases List.mem_cons.mp hrow with rfl | hrow
        · simpa using hd
        · exact ih hcs (by rw [hrows]; exact hrow)
    · rw [if_neg (by simpa using hfeed), List.tail_modifyHead] at hrow
      exact ih hcs hrow

/-- The rows that begin with a comment mark are comments. -/
theorem ofChars_eq_comment_iff {row : List Char} : Line.ofChars row = .comment ↔ opensComment row := by
  obtain h | ⟨blanks, c, rest, rfl, hblanks, hc⟩ := Text.forall_blank_or_exists row
  · rw [Line.ofChars, Text.trim_eq_nil h, opensComment, Text.trimStart, List.dropWhile_eq_nil_iff.mpr h]
    simp
  · have hstart : Text.trimStart (blanks ++ c :: rest) = c :: rest := by
      rw [Text.trimStart, List.dropWhile_append_of_pos hblanks, List.dropWhile_cons_of_neg (by simp [hc])]
    rw [Line.ofChars, Text.trim_append hblanks hc, opensComment, hstart]
    simp

/-- The rows of an entry are those of its value, with the key in front of the first. -/
theorem splitOn_text {e : Entry} (hkey : IsKey e.key.toList) :
    ∃ row rows, e.value.splitOn '\n' = row :: rows ∧
      e.text.splitOn '\n' = (e.key.toList ++ ' ' :: '=' :: ' ' :: row) :: rows := by
  obtain ⟨row, rows, hsplit⟩ := List.exists_cons_of_ne_nil (List.splitOn_ne_nil '\n' e.value)
  have hline : '\n' ∉ e.key.toList ++ [' ', '=', ' '] := by
    intro hmem
    rcases List.mem_append.mp hmem with hmem | hmem
    · exact absurd (hkey.plain _ hmem).1 (by decide)
    · simp at hmem
  have hcut : e.text = e.key.toList ++ [' ', '=', ' '] ++ e.value := by simp [Entry.text]
  refine ⟨row, rows, hsplit, ?_⟩
  rw [hcut, Text.splitOn_append hline, hsplit]
  simp

theorem headerName?_of_ne {c : Char} (h : c ≠ '[') (cs : List Char) : headerName? (c :: cs) = none := by
  unfold headerName?
  split
  · next heq => exact absurd (List.cons.inj heq).1 h
  · rfl

/-- What the first row of an entry says. -/
theorem ofChars_entry {key : List Char} (hkey : IsKey key) (row : List Char) :
    ∃ content, Line.ofChars (key ++ ' ' :: '=' :: ' ' :: row) = .text 0 content ∧
      Statement.ofText content = .option (.ofList key) (.ofList (Text.trim row)) := by
  obtain ⟨c, cs, rfl⟩ := List.exists_cons_of_ne_nil hkey.ne_nil
  obtain ⟨hbracket, hmark⟩ := hkey.first c rfl
  have hplain : ∀ d ∈ c :: cs, isDelimiter d = false := fun d hd ↦ (hkey.plain d hd).2
  have hc := (hkey.plain c List.mem_cons_self).1
  -- the blanks at the end are dropped behind the delimiter
  have htrim : Text.trim (c :: cs ++ ' ' :: '=' :: ' ' :: row) =
      c :: cs ++ ' ' :: '=' :: Text.trimEnd (' ' :: row) := by
    have hcut : c :: cs ++ ' ' :: '=' :: ' ' :: row = [] ++ c :: (cs ++ [' '] ++ '=' :: (' ' :: row)) := by simp
    rw [hcut, Text.trim_append (by simp) hc, Text.trimEnd_append_cons (by decide)]
    simp
  refine ⟨c :: cs ++ ' ' :: '=' :: Text.trimEnd (' ' :: row), ?_, ?_⟩
  · rw [Line.ofChars, htrim]
    simp [hmark, hc]
  · have hbefore : ∀ d ∈ c :: cs ++ [' '], !isDelimiter d := by
      intro d hd
      rcases List.mem_append.mp hd with hd | hd
      · simp [hplain d hd]
      · simp [List.mem_singleton.mp hd, isDelimiter]
    have hcut : c :: cs ++ ' ' :: '=' :: Text.trimEnd (' ' :: row) =
        (c :: cs ++ [' ']) ++ '=' :: Text.trimEnd (' ' :: row) := by simp
    have hlast : Text.trimEnd (c :: cs ++ [' ']) = c :: cs := by
      rw [Text.trimEnd_append_blanks (by simp [Text.isBlank])]
      exact Text.trimEnd_eq_self fun d hd ↦ (hkey.plain d (List.mem_of_getLast? hd)).1
    rw [Statement.ofText, List.cons_append, headerName?_of_ne hbracket, ← List.cons_append, hcut,
      List.dropWhile_append_of_pos hbefore, List.takeWhile_append_of_pos hbefore,
      List.dropWhile_cons_of_neg (by decide), List.takeWhile_cons_of_neg (by decide), List.append_nil, hlast]
    dsimp only
    rw [Text.trim_trimEnd, Text.trim_cons rfl]

/-- What an indented row says, unless it is a comment. -/
theorem reads_row {st : State} {row : List Char} (hopen : st.isOpen) (hindent : st.indent = 0)
    (hrow : row.head?.any Text.isBlank) (hcomment : opensComment row = false) :
    st.Reads (Line.ofChars row) (st.continueValue (.ofList (Text.trim row))) := by
  cases htrim : Text.trim row with
  | nil =>
    have hline : Line.ofChars row = .blank := by rw [Line.ofChars, htrim]
    rw [hline]
    exact State.reads_blank
  | cons c content =>
    obtain ⟨b, row, rfl⟩ : ∃ b rest, row = b :: rest := by
      cases row with
      | nil => simp at hrow
      | cons b rest => exact ⟨b, rest, rfl⟩
    have hmark : isCommentMark c = false := by
      by_contra hmark
      have hopens : opensComment (b :: row) := ofChars_eq_comment_iff.mp (by simp [Line.ofChars, htrim, hmark])
      simp [hcomment] at hopens
    have hb : Text.isBlank b := by simpa using hrow
    have hline : Line.ofChars (b :: row) = .text ((row.takeWhile Text.isBlank).length + 1) (c :: content) := by
      simp [Line.ofChars, htrim, hmark, hb]
    rw [hline]
    exact State.reads_continuation hopen (by omega) _

/-! ### A section -/

namespace State

variable {st : State} {name key : String} {options : Options} {option? : Option String}

/-- The state within a section of which the options have been read, and no line is indented so far. -/
def within (st : State) (name : String) (options : Options) (option? : Option String) : State :=
  { st with document := st.document.setOptions name options, current? := some name, option?, indent := 0 }

theorem continueValue_within (value : String) :
    (st.within name options (some key)).continueValue value =
      st.within name (options.insert key (value :: (options.find? key).getD [])) (some key) := by
  simp [within, continueValue]

/-- The rows of a value are added to its lines. -/
theorem readsAll_rows {rows : List (List Char)} (hrows : ∀ row ∈ rows, row.head?.any Text.isBlank)
    (hcomment : ∀ row ∈ rows, opensComment row = false) (values : List String) :
    (st.within name (options.insert key values) (some key)).ReadsAll (rows.map Line.ofChars)
      (st.within name (options.insert key ((rows.map fun row ↦ String.ofList (Text.trim row)).reverse ++ values))
        (some key)) := by
  induction rows generalizing values with
  | nil => exact .nil
  | cons row rows ih =>
    have hrow : (st.within name (options.insert key values) (some key)).Reads (Line.ofChars row) _ :=
      reads_row rfl rfl (hrows row List.mem_cons_self) (hcomment row List.mem_cons_self)
    rw [continueValue_within, Table.find?_insert_self, Option.getD_some, Table.insert_insert] at hrow
    have hrest := ih (fun r hr ↦ hrows r (List.mem_cons_of_mem _ hr))
      (fun r hr ↦ hcomment r (List.mem_cons_of_mem _ hr)) (String.ofList (Text.trim row) :: values)
    rw [List.map_cons, List.map_cons, List.reverse_cons, List.append_assoc, List.singleton_append]
    exact .cons hrow hrest

/-- An entry gives its option the lines of its value. -/
theorem readsAll_entry {e : Entry} (he : e.IsReadable) (hnew : options.contains e.option = false) :
    (st.within name options option?).ReadsAll ((e.text.splitOn '\n').map Line.ofChars)
      (st.within name (options.insert e.option e.lines) (some e.option)) := by
  obtain ⟨row, rows, hsplit, htext⟩ := splitOn_text he.key
  have hlines : e.lines =
      (rows.map fun row ↦ String.ofList (Text.trim row)).reverse ++ [.ofList (Text.trim row)] := by
    rw [Entry.lines, hsplit, List.map_cons, List.reverse_cons]
  have hindented : ∀ row ∈ rows, row.head?.any Text.isBlank := fun row hrow ↦
    indented_of_isFolded he.folded (by rw [hsplit]; exact hrow)
  have huncommented := he.uncommented
  rw [hsplit, List.tail_cons] at huncommented
  obtain ⟨content, hline, hcontent⟩ := ofChars_entry he.key row
  rw [String.ofList_toList] at hcontent
  have hnonempty : e.key ≠ "" := fun h ↦ he.key.ne_nil (by rw [h]; rfl)
  have hfirst : (st.within name options option?).Reads (.text 0 content) _ :=
    reads_option hcontent rfl hnonempty (by simpa [within, Entry.option] using hnew)
  rw [htext, List.map_cons, hline, hlines]
  refine .cons hfirst ?_
  have hrest : (st.within name (options.insert e.option [.ofList (Text.trim row)]) (some e.option)).ReadsAll _ _ :=
    readsAll_rows hindented huncommented [.ofList (Text.trim row)]
  simpa [within, Entry.option] using hrest

/-- Entries of different options give each option the lines of its value. -/
theorem readsAll_entries {es : List Entry} (hes : ∀ e ∈ es, e.IsReadable)
    (hnodup : (es.map Entry.option).Nodup) (hnew : ∀ e ∈ es, options.contains e.option = false) :
    ∃ option?', (st.within name options option?).ReadsAll
      (es.flatMap fun e ↦ (e.text.splitOn '\n').map Line.ofChars)
      (st.within name (es.foldl (fun o e ↦ o.insert e.option e.lines) options) option?') := by
  induction es generalizing options option? with
  | nil => exact ⟨option?, .nil⟩
  | cons e es ih =>
    obtain ⟨hfirst, hnodup⟩ := List.nodup_cons.mp hnodup
    have hnew' : ∀ e' ∈ es, (options.insert e.option e.lines).contains e'.option = false := by
      intro e' he'
      have hne : e'.option ≠ e.option := fun heq ↦ hfirst (heq ▸ List.mem_map_of_mem he')
      rw [Table.contains, Table.find?_insert_of_ne _ _ hne]
      exact hnew e' (List.mem_cons_of_mem _ he')
    obtain ⟨option?', hrest⟩ := @ih (options.insert e.option e.lines) (some e.option)
      (fun e' he' ↦ hes e' (List.mem_cons_of_mem _ he')) hnodup hnew'
    exact ⟨option?', (readsAll_entry (hes e List.mem_cons_self) (hnew e List.mem_cons_self)).append hrest⟩

end State

/-- The options of entries. -/
def optionsOf (es : List Entry) : Options := .ofList (es.map fun e ↦ (e.option, e.lines))

theorem find?_optionsOf {es : List Entry} (hnodup : (es.map Entry.option).Nodup) {e : Entry} (he : e ∈ es) :
    (optionsOf es).find? e.option = some e.lines :=
  Table.find?_ofList_of_mem (e := (e.option, e.lines)) (by simpa [Function.comp_def] using hnodup)
    (List.mem_map_of_mem he)

theorem find?_optionsOf_eq_none {es : List Entry} {option : String} (h : option ∉ es.map Entry.option) :
    (optionsOf es).find? option = none :=
  Table.find?_ofList_eq_none (by simpa using h)

/-- A section as it is written. -/
def sectionText (name : String) (es : List Entry) : List Char :=
  List.intercalate ['\n'] (('[' :: name.toList ++ [']']) :: es.map Entry.text)

/-- What a header says. -/
theorem ofChars_header {name : List Char} (hname : name ≠ []) :
    ∃ content, Line.ofChars ('[' :: name ++ [']']) = .text 0 content ∧
      Statement.ofText content = .header (.ofList name) := by
  have htrim : Text.trim ('[' :: name ++ [']']) = '[' :: name ++ [']'] := by
    refine Text.trim_eq_self (fun c hc ↦ ?_) fun c hc ↦ ?_
    · cases hc
      rfl
    · rw [List.getLast?_concat] at hc
      cases hc
      rfl
  refine ⟨'[' :: name ++ [']'], ?_, ?_⟩
  · rw [Line.ofChars, htrim]
    simp [isCommentMark, Text.isBlank]
  · have hheader : headerName? ('[' :: name ++ [']']) = some name := by
      simp [headerName?, hname]
    rw [Statement.ofText, hheader]

/-- The rows of a section are its header and the rows of its entries. -/
theorem splitOn_sectionText {name : String} (hname : '\n' ∉ name.toList) (es : List Entry) :
    (sectionText name es).splitOn '\n' =
      ('[' :: name.toList ++ [']']) :: es.flatMap fun e ↦ e.text.splitOn '\n' := by
  have hheader : ('[' :: name.toList ++ [']']).splitOn '\n' = ['[' :: name.toList ++ [']']] :=
    List.splitOn_eq_singleton (by simpa using hname)
  rw [sectionText, Text.splitOn_intercalate (by simp), List.flatMap_cons, hheader, List.flatMap_map]
  rfl

/-- A section is read as the table of its options. -/
theorem State.readsAll_section {st : State} {name : String} {es : List Entry} (hempty : name ≠ "")
    (hdefault : name ≠ defaultSection) (hline : '\n' ∉ name.toList) (hnew : st.document.hasSection name = false)
    (hes : ∀ e ∈ es, e.IsReadable) (hnodup : (es.map Entry.option).Nodup) :
    ∃ option?, st.ReadsAll (((sectionText name es).splitOn '\n').map Line.ofChars)
      (st.within name (optionsOf es) option?) := by
  obtain ⟨content, hheader, hcontent⟩ := ofChars_header (show name.toList ≠ [] by simpa using hempty)
  rw [String.ofList_toList] at hcontent
  obtain ⟨option?, hentries⟩ := @readsAll_entries st name .empty none es hes hnodup fun e _ ↦ rfl
  refine ⟨option?, ?_⟩
  rw [splitOn_sectionText hline, List.map_cons, hheader, List.map_flatMap]
  rw [optionsOf, Table.ofList, List.foldl_map]
  exact .cons (reads_header hcontent hdefault hnew) hentries

/-! ### A text that is one section -/

/-- What a line says does not hang on what ends it. -/
theorem ofChars_append_newline (row : List Char) : Line.ofChars (row ++ ['\n']) = Line.ofChars row := by
  have hblank : ∀ c ∈ ['\n'], Text.isBlank c := by simp [Text.isBlank]
  obtain h | ⟨blanks, c, rest, rfl, hblanks, hc⟩ := Text.forall_blank_or_exists row
  · rw [Line.ofChars, Line.ofChars, Text.trim_append_blanks hblank, Text.trim_eq_nil h]
  · have htake (rest : List Char) : (blanks ++ c :: rest).takeWhile Text.isBlank = blanks := by
      rw [List.takeWhile_append_of_pos hblanks, List.takeWhile_cons_of_neg (by simp [hc]), List.append_nil]
    rw [Line.ofChars, Line.ofChars, Text.trim_append_blanks hblank, htake, List.append_assoc, List.cons_append, htake]

/-- The lines of a text say what its rows say, whether or not the last row is ended, if none is empty. -/
theorem map_ofChars_lines {cs : List Char} (h : ∀ row ∈ cs.splitOn '\n', row ≠ []) (ended : Bool) :
    (Text.lines (cs ++ if ended then ['\n'] else [])).map Line.ofChars = (cs.splitOn '\n').map Line.ofChars := by
  obtain ⟨rows, last, hrows⟩ := (List.eq_nil_or_concat' (cs.splitOn '\n')).resolve_left (List.splitOn_ne_nil _ _)
  have hline : ∀ row ∈ rows ++ [last], '\n' ∉ row := fun row hrow ↦ Text.notMem_of_mem_splitOn (hrows ▸ hrow)
  have hcs : cs = List.intercalate ['\n'] (rows ++ [last]) := by rw [← hrows, List.intercalate_splitOn]
  have hlast : last ≠ [] := h last (by simp [hrows])
  rw [hrows]
  conv_lhs => rw [hcs]
  rw [Text.lines_intercalate (fun row hrow ↦ hline row (by simp [hrow])) (hline last (by simp)) hlast]
  cases ended <;> simp [ofChars_append_newline, Function.comp_def]

/-- No row of a section is empty. -/
theorem ne_nil_of_mem_sectionText {name : String} {es : List Entry} (hname : '\n' ∉ name.toList)
    (hes : ∀ e ∈ es, e.IsReadable) : ∀ row ∈ (sectionText name es).splitOn '\n', row ≠ [] := by
  intro row hrow
  rw [splitOn_sectionText hname] at hrow
  rcases List.mem_cons.mp hrow with rfl | hrow
  · simp
  · obtain ⟨e, he, hrow⟩ := List.mem_flatMap.mp hrow
    obtain ⟨first, rows, hvalue, htext⟩ := splitOn_text (hes e he).key
    rw [htext] at hrow
    rcases List.mem_cons.mp hrow with rfl | hrow
    · simp
    · rintro rfl
      have hindented := indented_of_isFolded (hes e he).folded (by rw [hvalue]; exact hrow)
      simp at hindented

/-- A text that is one section is read as the document that has only that section. -/
theorem Document.ofLines_sectionText {name : String} {es : List Entry} (hempty : name ≠ "")
    (hdefault : name ≠ defaultSection) (hline : '\n' ∉ name.toList) (hes : ∀ e ∈ es, e.IsReadable)
    (hnodup : (es.map Entry.option).Nodup) (ended : Bool) :
    Document.ofLines (Text.lines (sectionText name es ++ if ended then ['\n'] else [])) =
      .ok (({} : Document).setOptions name (optionsOf es)) := by
  have hnew : ({} : State).document.hasSection name = false := rfl
  obtain ⟨option?, hreads⟩ := State.readsAll_section hempty hdefault hline hnew hes hnodup
  rw [← map_ofChars_lines (ne_nil_of_mem_sectionText hline hes) ended] at hreads
  rw [Document.ofLines, hreads.readAll_eq]
  rfl

/-- The value of an option of such a document: its rows without the blanks around them. -/
theorem Document.value?_of_mem {name : String} {es : List Entry} (hdefault : name ≠ defaultSection)
    (hnodup : (es.map Entry.option).Nodup) {e : Entry} (he : e ∈ es) :
    (({} : Document).setOptions name (optionsOf es)).value? name e.option =
      some (.ofList (Text.trimEnd (List.intercalate ['\n'] ((e.value.splitOn '\n').map Text.trim)))) := by
  have hlines : joinLines e.lines =
      .ofList (Text.trimEnd (List.intercalate ['\n'] ((e.value.splitOn '\n').map Text.trim))) := by
    rw [joinLines, Entry.lines, List.reverse_reverse, String.toList_intercalate, List.map_map]
    simp [Function.comp_def]
  simp [setOptions, hdefault, value?, find?_optionsOf hnodup he, hlines]

/-- An option that no entry gives has no value. -/
theorem Document.value?_eq_none {name option : String} {es : List Entry} (hdefault : name ≠ defaultSection)
    (h : option ∉ es.map Entry.option) :
    (({} : Document).setOptions name (optionsOf es)).value? name option = none := by
  simp [setOptions, hdefault, value?, find?_optionsOf_eq_none h]

end Ini
end ModuleBuild
