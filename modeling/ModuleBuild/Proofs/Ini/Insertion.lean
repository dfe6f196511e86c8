import ModuleBuild.Proofs.Answers
import ModuleBuild.Proofs.Ini.Reading

/-!
# What is put into a text

Reading that notes no bad line is a chain of lines that are read one after another (`Document.ofText_eq_ok_iff`), and
such a chain can be parted anywhere. A comment leads from each state to the same state, so it may stand wherever a line
starts, between the lines of a value too (`Document.ofText_comment`). A section behind the last line is read as if it
stood alone: the sections before it stay as they are (`Document.ofText_section`).
-/

namespace ModuleBuild.Ini

open Text (IsLineStart ended)

/-- The lines of a text as the reader sees them. -/
def linesOf (cs : List Char) : List Line := (Text.lines (Text.normalizeNewlines cs)).map Line.ofChars

/-- The document that a text makes. -/
def Document.ofText (cs : List Char) : Except Fault Document :=
  Document.ofLines (Text.lines (Text.normalizeNewlines cs))

variable {cs front back ending : List Char}

/-- Where a line starts, the lines in front and behind are read apart. -/
theorem linesOf_append (h : IsLineStart front back) : linesOf (front ++ back) = linesOf front ++ linesOf back := by
  have hparted : front.getLast? ≠ some '\r' ∨ back.head? ≠ some '\n' := by
    rcases h with rfl | h | h
    · simp
    · simp [h]
    · exact .inr h.2
  have hended : Text.normalizeNewlines front = [] ∨ (Text.normalizeNewlines front).getLast? = some '\n' := by
    rcases h with rfl | h | h
    · exact .inl rfl
    · simp [Text.getLast?_normalizeNewlines, h]
    · simp [Text.getLast?_normalizeNewlines, h.1]
  rw [linesOf, Text.normalizeNewlines_append hparted, Text.lines_append hended, List.map_append, linesOf, linesOf]

/-- A text says the same when its last line is ended. -/
theorem linesOf_ended (cs : List Char) : linesOf (ended cs) = linesOf cs := by
  unfold ended
  split
  · rfl
  · next h =>
    obtain ⟨hne, hfeed, hreturn⟩ : cs ≠ [] ∧ cs.getLast? ≠ some '\n' ∧ cs.getLast? ≠ some '\r' := by simpa using h
    obtain ⟨c, hc⟩ : ∃ c, cs.getLast? = some c := Option.ne_none_iff_exists'.mp (by simpa using hne)
    have hlast : (Text.normalizeNewlines cs).getLast? = some c := by
      have hc' : c ≠ '\r' := by simpa [hc] using hreturn
      simp [Text.getLast?_normalizeNewlines, hc, hc']
    have hnonempty : Text.normalizeNewlines cs ≠ [] := fun hnil ↦ by simp [hnil] at hlast
    obtain ⟨ls, l, hlines, hended⟩ := Text.lines_concat_newline hnonempty (by rwa [hlast, ← hc])
    rw [linesOf, Text.normalizeNewlines_append (.inl hreturn), linesOf]
    simp [Text.normalizeNewlines, hlines, hended, ofChars_append_newline]

/-! ### Reading without bad lines -/

namespace State

variable {st st' st'' : State} {number : Nat} {l : List Char} {ls ls' : List Line}

theorem badLines_continueValue (value : String) : (st.continueValue value).badLines = st.badLines := by
  unfold continueValue
  split <;> rfl

/-- A section is opened without its header being noted, whatever the number of the line. -/
theorem openSection_eq_ok {name : String} (h : st.openSection number name = .ok st') :
    st'.badLines = st.badLines ∧ ∀ n, st.openSection n name = .ok st' := by
  unfold openSection at h ⊢
  split at h
  · next hdefault =>
    cases h
    exact ⟨rfl, fun _ ↦ if_pos hdefault⟩
  · next hdefault =>
    split at h
    · simp at h
    · next hnew =>
      cases h
      exact ⟨rfl, fun _ ↦ by rw [if_neg hdefault, if_neg hnew]⟩

/-- An option that is opened without being noted is opened so in every line. -/
theorem openOption_eq_ok {name option value : String} (h : st.openOption number l name option value = .ok st')
    (hgood : st'.badLines = []) :
    st.badLines = [] ∧ ∀ n l', st.openOption n l' name option value = .ok st' := by
  unfold openOption at h ⊢
  by_cases hoption : option = ""
  · simp only [hoption, if_true] at h
    split at h
    · simp at h
    · cases h
      simp [note] at hgood
  · simp only [hoption, if_false] at h ⊢
    split at h
    · simp at h
    · next hnew =>
      cases h
      exact ⟨hgood, fun _ _ ↦ if_neg hnew⟩

/-- A line that is read without being noted is read so everywhere, and none was noted before it. -/
theorem reads_of_read (h : st.read number l = .ok st') (hgood : st'.badLines = []) :
    st.badLines = [] ∧ st.Reads (Line.ofChars l) st' := by
  unfold Reads
  unfold read at h ⊢
  cases hline : Line.ofChars l with
  | comment =>
    rw [hline] at h
    cases h
    exact ⟨hgood, fun n l' hl' ↦ by rw [hl']⟩
  | blank =>
    rw [hline] at h
    cases h
    rw [badLines_continueValue] at hgood
    exact ⟨hgood, fun n l' hl' ↦ by rw [hl']⟩
  | text indent content =>
    simp only [hline] at h
    simp +contextual only
    split at h
    · next hcontinues =>
      cases h
      rw [badLines_continueValue] at hgood
      exact ⟨hgood, fun _ _ _ ↦ if_pos hcontinues⟩
    · next hcontinues =>
      simp only [if_neg hcontinues]
      cases hcontent : Statement.ofText content with
      | header name =>
        simp only [hcontent] at h ⊢
        obtain ⟨hbad, hevery⟩ := openSection_eq_ok h
        exact ⟨hbad ▸ hgood, fun n _ _ ↦ hevery n⟩
      | option option value =>
        cases hcurrent : st.current? with
        | none => simp [hcontent, hcurrent] at h
        | some name =>
          simp only [hcontent, hcurrent] at h ⊢
          obtain ⟨hbad, hevery⟩ := openOption_eq_ok h hgood
          exact ⟨hbad, fun n l' _ ↦ hevery n l'⟩
      | nothing =>
        cases hcurrent : st.current? with
        | none => simp [hcontent, hcurrent] at h
        | some name =>
          simp only [hcontent, hcurrent] at h
          cases h
          simp [note] at hgood

/-- Lines that are read without one of them being noted are read one after another. -/
theorem readsAll_of_readAll {texts : List (List Char)} (h : st.readAll number texts = .ok st')
    (hgood : st'.badLines = []) : st.badLines = [] ∧ st.ReadsAll (texts.map Line.ofChars) st' := by
  induction texts generalizing st number with
  | nil =>
    cases h
    exact ⟨hgood, .nil⟩
  | cons l texts ih =>
    obtain ⟨st₁, hread, hrest⟩ := bind_eq_ok.mp h
    obtain ⟨hgood₁, hall⟩ := ih hrest
    obtain ⟨hgood₀, hreads⟩ := reads_of_read hread hgood₁
    exact ⟨hgood₀, .cons hreads hall⟩

/-- Lines that are read one after another are read up to any of them, and from there on. -/
theorem ReadsAll.parted (h : st.ReadsAll (ls ++ ls') st'') : ∃ st', st.ReadsAll ls st' ∧ st'.ReadsAll ls' st'' := by
  induction ls generalizing st with
  | nil => exact ⟨st, .nil, h⟩
  | cons l ls ih =>
    obtain _ | ⟨head, rest⟩ := h
    obtain ⟨st', hls, hls'⟩ := ih rest
    exact ⟨st', .cons head hls, hls'⟩

/-- A comment leaves everything as it is, what is open too. -/
theorem reads_comment (st : State) : st.Reads .comment st := by
  intro number l hl
  rw [read, hl]

end State

namespace Document

variable {d : Document} {ls : List Line}

/-- A text makes a document if its lines can be read one after another without one being noted. -/
theorem ofText_eq_ok_iff : ofText cs = .ok d ↔
    ∃ st, ({} : State).ReadsAll (linesOf cs) st ∧ st.badLines = [] ∧ st.document = d := by
  have hfinish {st : State} : st.finish = .ok d ↔ st.badLines = [] ∧ st.document = d := by
    unfold State.finish
    split <;> simp_all
  constructor
  · intro h
    obtain ⟨st, hread, hst⟩ := bind_eq_ok.mp h
    obtain ⟨hgood, hd⟩ := hfinish.mp hst
    exact ⟨st, (State.readsAll_of_readAll hread hgood).2, hgood, hd⟩
  · rintro ⟨st, hreads, hst⟩
    rw [ofText, ofLines, hreads.readAll_eq, ok_bind, hfinish]
    exact hst

end Document

/-- The text ends a line, in one of the ways to do so, or it ends without ending one. -/
def IsLineEnd (ending : List Char) : Prop := ending ∈ [[], ['\n'], ['\r'], ['\r', '\n']]

/-- Rows of which none is empty are the lines of a text, whether or not the last is ended. -/
theorem linesOf_rows (hreturn : '\r' ∉ cs) (hrows : ∀ row ∈ cs.splitOn '\n', row ≠ []) (hending : IsLineEnd ending) :
    linesOf (cs ++ ending) = (cs.splitOn '\n').map Line.ofChars := by
  obtain ⟨isEnded, hnormal⟩ : ∃ isEnded : Bool, Text.normalizeNewlines ending = if isEnded then ['\n'] else [] := by
    simp only [IsLineEnd, List.mem_cons, List.not_mem_nil, or_false] at hending
    rcases hending with rfl | rfl | rfl | rfl
    exacts [⟨false, rfl⟩, ⟨true, rfl⟩, ⟨true, rfl⟩, ⟨true, rfl⟩]
  have hlast : cs.getLast? ≠ some '\r' := fun h ↦ hreturn (List.mem_of_getLast? h)
  rw [linesOf, Text.normalizeNewlines_append (.inl hlast), Text.normalizeNewlines_eq_self hreturn, hnormal,
    map_ofChars_lines hrows]

/-! ### Comments -/

/-- A comment that fills a line. -/
structure Comment where
  indentation : List Char
  mark : Char
  body : List Char
  isBlank_indentation : ∀ c ∈ indentation, Text.isBlank c ∧ c ≠ '\n' ∧ c ≠ '\r'
  isCommentMark_mark : isCommentMark mark
  ne_of_mem_body : ∀ c ∈ body, c ≠ '\n' ∧ c ≠ '\r'

namespace Comment

variable {c : Comment}

/-- What stands in the line. -/
def text (c : Comment) : List Char := c.indentation ++ c.mark :: c.body

theorem ne_of_mem_text {d : Char} (hd : d ∈ c.text) : d ≠ '\n' ∧ d ≠ '\r' := by
  rcases List.mem_append.mp hd with hd | hd
  · exact (c.isBlank_indentation d hd).2
  · rcases List.mem_cons.mp hd with rfl | hd
    · have hmark := c.isCommentMark_mark
      constructor
      all_goals
        intro h
        simp [h, isCommentMark] at hmark
    · exact c.ne_of_mem_body d hd

/-- The reader sees a comment. -/
theorem linesOf_text (hending : IsLineEnd ending) : linesOf (c.text ++ ending) = [.comment] := by
  have hrow : c.text.splitOn '\n' = [c.text] :=
    List.splitOn_eq_singleton fun h ↦ (ne_of_mem_text h).1 rfl
  have hcomment : Line.ofChars c.text = .comment := by
    have hblank : ∀ d ∈ c.indentation, Text.isBlank d := fun d hd ↦ (c.isBlank_indentation d hd).1
    have hmark : Text.isBlank c.mark = false := by
      have hmark := c.isCommentMark_mark
      simp only [isCommentMark, Bool.or_eq_true, beq_iff_eq] at hmark
      rcases hmark with h | h <;> rw [h] <;> rfl
    rw [Line.ofChars, text, Text.trim_append hblank hmark]
    simp [c.isCommentMark_mark]
  have hne : c.text ≠ [] := by simp [text]
  rw [linesOf_rows (fun h ↦ (ne_of_mem_text h).2 rfl) (by simpa [hrow] using hne) hending, hrow, List.map_singleton,
    hcomment]

end Comment

namespace Document

variable {d : Document}

/-- A comment that is put in where a line starts, and that is ended unless it comes last, changes nothing. -/
theorem ofText_comment (h : ofText (front ++ back) = .ok d) (hfront : IsLineStart front back) (c : Comment)
    (hending : IsLineEnd ending) (hback : back = [] ∨ IsLineStart (front ++ (c.text ++ ending)) back) :
    ofText (front ++ (c.text ++ ending) ++ back) = .ok d := by
  obtain ⟨st, hreads, hst⟩ := ofText_eq_ok_iff.mp h
  rw [linesOf_append hfront] at hreads
  obtain ⟨st₁, hfirst, hrest⟩ := hreads.parted
  have hstart : IsLineStart front (c.text ++ ending) := by
    refine hfront.congr fun hhead ↦ ?_
    rw [List.head?_append_of_ne_nil _ (by simp [Comment.text])] at hhead
    exact (Comment.ne_of_mem_text (List.mem_of_head? hhead)).1 rfl
  have hlines : linesOf (front ++ (c.text ++ ending) ++ back) = linesOf front ++ .comment :: linesOf back := by
    have hcut : linesOf (front ++ (c.text ++ ending) ++ back) =
        linesOf (front ++ (c.text ++ ending)) ++ linesOf back := by
      rcases hback with rfl | hback
      · simp [linesOf, Text.normalizeNewlines, Text.lines]
      · exact linesOf_append hback
    rw [hcut, linesOf_append hstart, Comment.linesOf_text hending, List.append_assoc, List.singleton_append]
  exact ofText_eq_ok_iff.mpr ⟨st, hlines ▸ hfirst.append (.cons (State.reads_comment st₁) hrest), hst⟩

theorem ofText_ended (cs : List Char) : ofText (ended cs) = .ok d ↔ ofText cs = .ok d := by
  rw [ofText_eq_ok_iff, ofText_eq_ok_iff, linesOf_ended]

end Document

/-! ### Sections -/

/-- A key of letters, digits and underscores can be read, with any value of one line. -/
theorem Entry.isReadable_of_word {e : Entry} (hne : e.key ≠ "") (hkey : ∀ c ∈ e.key.toList, c.isAlphanum ∨ c = '_')
    (hvalue : '\n' ∉ e.value) : e.IsReadable := by
  have hcode {c : Char} (hc : c ∈ e.key.toList) :
      48 ≤ c.toNat ∧ c.toNat ≤ 57 ∨ 65 ≤ c.toNat ∧ c.toNat ≤ 90 ∨ c.toNat = 95 ∨ 97 ≤ c.toNat ∧ c.toNat ≤ 122 := by
    have hword := hkey c hc
    have halphanum : c.isAlphanum = (c.isUpper || c.isLower || c.isDigit) := rfl
    have hupper : c.isUpper = decide (65 ≤ c.val ∧ c.val ≤ 90) := rfl
    have hlower : c.isLower = (decide (97 ≤ c.val) && decide (c.val ≤ 122)) := rfl
    simp only [halphanum, hupper, hlower, Char.isDigit_iff_toNat, Bool.or_eq_true, Bool.and_eq_true,
      decide_eq_true_eq, UInt32.le_iff_toNat_le] at hword
    rcases hword with ((h | h) | h) | rfl
    exacts [.inr (.inl h), .inr (.inr (.inr h)), .inl h, .inr (.inr (.inl rfl))]
  have hblank {c : Char} (hc : c ∈ e.key.toList) : Text.isBlank c = false := by
    have := hcode hc
    rw [← Bool.not_eq_true]
    simp only [Text.isBlank, Bool.or_eq_true, Bool.and_eq_true, decide_eq_true_eq, beq_iff_eq]
    omega
  have hmark {c : Char} (hc : c ∈ e.key.toList) : ∀ d ∈ ['=', ':', '[', '#', ';'], c ≠ d := by
    rintro d hd rfl
    have := hcode hc
    have hother : ∀ d ∈ ['=', ':', '[', '#', ';'],
        d.toNat < 48 ∨ 57 < d.toNat ∧ d.toNat < 65 ∨ d.toNat = 91 :=
      List.forall_iff_forall_mem.mp (by decide)
    have := hother c hd
    omega
  refine ⟨⟨by simpa using hne, fun c hc ↦ ?_, fun c hc ↦ ?_⟩, isFolded_of_notMem hvalue, ?_⟩
  · have hdelimiter := hmark hc
    exact ⟨hblank hc, by simp_all [isDelimiter]⟩
  · have hopening := hmark (List.mem_of_head? hc)
    exact ⟨hopening _ (by simp), by simp_all [isCommentMark]⟩
  · rw [List.splitOn_eq_singleton hvalue]
    simp

namespace Document

variable {d : Document} {name : String} {es : List Entry}

/-- A section behind the last line is added to the document, if it has another name than those before it. -/
theorem ofText_section (h : ofText cs = .ok d) (hcs : IsLineStart cs []) (hempty : name ≠ "")
    (hdefault : name ≠ defaultSection) (hname : ∀ c ∈ name.toList, c ≠ '\n' ∧ c ≠ '\r')
    (hnew : d.hasSection name = false) (hes : ∀ e ∈ es, e.IsReadable ∧ '\r' ∉ e.value)
    (hnodup : (es.map Entry.option).Nodup) (hending : IsLineEnd ending) :
    ofText (cs ++ (sectionText name es ++ ending)) = .ok (d.setOptions name (optionsOf es)) := by
  obtain ⟨st, hreads, hgood, rfl⟩ := ofText_eq_ok_iff.mp h
  have hfeed : '\n' ∉ name.toList := fun h ↦ (hname _ h).1 rfl
  have hreadable : ∀ e ∈ es, e.IsReadable := fun e he ↦ (hes e he).1
  have hreturn : '\r' ∉ sectionText name es := by
    refine Text.notMem_intercalate (by decide) fun row hrow ↦ ?_
    rcases List.mem_cons.mp hrow with rfl | hrow
    · have hreturn : '\r' ∉ name.toList := fun h ↦ (hname _ h).2 rfl
      simpa using hreturn
    · obtain ⟨e, he, rfl⟩ := List.mem_map.mp hrow
      have hkey : '\r' ∉ e.key.toList := fun hmem ↦ absurd ((hes e he).1.key.plain _ hmem).1 (by decide)
      simp [Entry.text, hkey, (hes e he).2]
  have hstart : IsLineStart cs (sectionText name es ++ ending) := hcs.congr (by
    rw [sectionText]
    cases es <;> simp [List.intercalate_cons_cons])
  obtain ⟨option?, hsection⟩ := State.readsAll_section hempty hdefault hfeed hnew hreadable hnodup
  refine ofText_eq_ok_iff.mpr ⟨st.within name (optionsOf es) option?, ?_, hgood, rfl⟩
  rw [linesOf_append hstart, linesOf_rows hreturn (ne_nil_of_mem_sectionText hfeed hreadable) hending]
  exact hreads.append hsection

/-- The options of a section do not tell in another one. -/
theorem value?_setOptions_of_ne {section' option : String} (options : Options) (hdefault : name ≠ defaultSection)
    (h : section' ≠ name) : (d.setOptions name options).value? section' option = d.value? section' option := by
  simp [setOptions, hdefault, value?, Table.find?_insert_of_ne _ _ h]

theorem hasSection_setOptions_of_ne {section' : String} (options : Options) (hdefault : name ≠ defaultSection)
    (h : section' ≠ name) : (d.setOptions name options).hasSection section' = d.hasSection section' := by
  simp [setOptions, hdefault, hasSection, Table.contains, Table.find?_insert_of_ne _ _ h]

end Document
end ModuleBuild.Ini
