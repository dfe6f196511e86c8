import ModuleBuild.Proofs.Listing.Finishing
import ModuleBuild.Proofs.Text.Blank

/-!
# Phony rules change no reading

A compiler wraps its rule as it likes and prints the names as they are (`wrapped`). As long as no name has a
colon, the phony rules behind such a listing neither take a name away nor add one (`phonyRules_transparent`).
A colon in a name is taken for the end of a target (`colon_in_name_loses_headers`).
-/

namespace ModuleBuild

namespace Listing

variable {cs ds object row : List Char} {rows : List (List Char)}

/-! ### Names without backslashes -/

/-- Without backslashes the pieces of a text, apart from empty ones, are its runs. -/
theorem pieces_eq_runs (h : '\\' ∉ cs) {previous : Char} (hprevious : previous ≠ '\\') :
    (pieces previous true cs).filter (!·.isEmpty) = Text.runs Text.isBlank cs ∧
      ∃ p ps qs, pieces previous false cs = p :: ps ∧ cs.splitOnP Text.isBlank = p :: qs ∧
        ps.filter (!·.isEmpty) = qs.filter (!·.isEmpty) := by
  induction cs generalizing previous with
  | nil => exact ⟨rfl, [], [], [], rfl, rfl, rfl⟩
  | cons c cs ih =>
    obtain ⟨hc, hcs⟩ : '\\' ≠ c ∧ '\\' ∉ cs := by simpa using h
    obtain ⟨hgap, p, ps, qs, hpieces, hsplit, hrest⟩ := ih hcs (Ne.symm hc)
    by_cases hblank : Text.isBlank c
    · have hopens : (Text.isBlank c && (false || previous != '\\')) = true := by
        simpa [hblank] using hprevious
      have hruns : Text.runs Text.isBlank (c :: cs) = Text.runs Text.isBlank cs := by
        simpa using Text.runs_append_sep hblank [] cs
      refine ⟨?_, [], pieces c true cs, cs.splitOnP Text.isBlank, ?_, ?_, hgap⟩
      · rw [pieces, hblank, hruns]
        exact hgap
      · rw [pieces, hopens]
        rfl
      · rw [List.splitOnP_cons_eq_if_modifyHead, if_pos hblank]
    · have hsplit' : (c :: cs).splitOnP Text.isBlank = (c :: p) :: qs := by
        rw [List.splitOnP_cons_eq_if_modifyHead, if_neg hblank, hsplit, List.modifyHead_cons]
      have hcons (inGap : Bool) : pieces previous inGap (c :: cs) = (c :: p) :: ps := by
        rw [pieces_cons (by simp [hblank]), hpieces, List.modifyHead_cons]
      refine ⟨?_, c :: p, ps, qs, hcons false, hsplit', hrest⟩
      rw [hcons, Text.runs, hsplit', List.filter_cons_of_pos (by simp), List.filter_cons_of_pos (by simp),
        hrest]

theorem unescape_eq_self (h : '\\' ∉ cs) : unescape cs = cs := by
  induction cs with
  | nil => rfl
  | cons c cs ih =>
    obtain ⟨hc, hcs⟩ : '\\' ≠ c ∧ '\\' ∉ cs := by simpa using h
    rw [unescape, ih hcs]
    simp [Ne.symm hc]

/-- Without backslashes the names of a text are its words, doubled dollar signs made single. -/
theorem names_eq_runs (h : '\\' ∉ cs) : names cs = (Text.runs Text.isBlank cs).map undouble := by
  have htrim : '\\' ∉ Text.trim cs := by
    intro hmem
    have hstart := (List.dropWhile_suffix Text.isBlank).subset (List.mem_reverse.mp hmem)
    exact h ((List.dropWhile_suffix Text.isBlank).subset (List.mem_reverse.mp hstart))
  obtain ⟨-, p, ps, qs, hpieces, hsplit, hrest⟩ := pieces_eq_runs htrim (by decide : '\x00' ≠ '\\')
  have hruns : (pieces '\x00' false (Text.trim cs)).filter (!·.isEmpty) = Text.runs Text.isBlank cs := by
    rw [← Text.runs_trim fun _ h ↦ h, Text.runs, hsplit, hpieces, List.filter_cons, List.filter_cons, hrest]
  rw [names, hruns]
  apply List.map_congr_left
  intro r hr
  rw [unescape_eq_self]
  intro hmem
  exact h (Text.mem_of_mem_runs hr hmem)

/-- Names do not reach over a blank. -/
theorem names_append_blank {c : Char} (hc : Text.isBlank c) (hcs : '\\' ∉ cs) (hds : '\\' ∉ ds) :
    names (cs ++ c :: ds) = names cs ++ names ds := by
  have hb : c ≠ '\\' := by
    rintro rfl
    exact absurd hc (by decide)
  rw [names_eq_runs (by simp [hcs, hds, Ne.symm hb]), Text.runs_append_sep hc, List.map_append,
    names_eq_runs hcs, names_eq_runs hds]

/-- A text without backslashes stays as it is when lines are joined. -/
theorem joinContinued_append_of_notMem (h : '\\' ∉ cs) (ds : List Char) :
    joinContinued (cs ++ ds) = cs ++ joinContinued ds := by
  induction cs with
  | nil => rfl
  | cons c cs ih =>
    obtain ⟨hc, hcs⟩ : '\\' ≠ c ∧ '\\' ∉ cs := by simpa using h
    rw [List.cons_append, joinContinued_of_ne (Ne.symm hc), ih hcs, List.cons_append]

/-- Reading on over rules without targets that name nothing new does not change what is read. -/
theorem prerequisites_append {s s' : String} (h : rules (s ++ s') = rules s ++ rules s')
    (htargets : (rules s').flatMap Prod.fst = [])
    (hfiles : ∀ n ∈ (rules s').flatMap Prod.snd, n ∈ (rules s).flatMap Prod.snd) :
    prerequisites (s ++ s') = prerequisites s := by
  have hsides : (rules (s ++ s')).flatMap Prod.fst = (rules s).flatMap Prod.fst := by
    rw [h, List.flatMap_append, htargets, List.append_nil]
  have hnew : appendNew [] ((rules (s ++ s')).flatMap Prod.snd) =
      appendNew [] ((rules s).flatMap Prod.snd) := by
    rw [h, List.flatMap_append, appendNew_append]
    apply appendNew_of_subset
    intro n hn
    exact mem_appendNew.mpr (.inr (hfiles n hn))
  rw [prerequisites, prerequisites, hsides, hnew]

/-- Rows put together end as their last row does, if that is not empty. -/
theorem getLast?_intercalate {c : Char} (h : rows.getLast? = some (row ++ [c])) :
    (List.intercalate cs rows).getLast? = some c := by
  induction rows with
  | nil => simp at h
  | cons r rows ih =>
    cases rows with
    | nil =>
      obtain rfl := Option.some.inj h
      simp
    | cons r' rows => rw [List.intercalate_cons_cons, List.getLast?_append, ih h, Option.some_or]

/-! ### Wrapped rules -/

/-- What a row of a rule may hold: anything but the end of a line, comments, colons and backslashes. -/
def IsPlain (row : List Char) : Prop :=
  ∀ c ∈ row, Text.isLineEnd c = false ∧ c ≠ '#' ∧ c ≠ ':' ∧ c ≠ '\\'

instance (row : List Char) : Decidable (IsPlain row) := List.decidableBAll _ row

/-- The listing of an object: its name, a colon, and rows of names, each but the last continued on the next
line. The last may be ended or not. -/
def wrapped (object : List Char) (rows : List (List Char)) (ended : Bool) : String :=
  .ofList (object ++ ':' :: List.intercalate ['\\', '\n'] rows ++ if ended then ['\n'] else [])

namespace IsPlain

theorem hash_notMem (h : IsPlain row) : '#' ∉ row := fun hmem ↦ (h _ hmem).2.1 rfl

theorem colon_notMem (h : IsPlain row) : ':' ∉ row := fun hmem ↦ (h _ hmem).2.2.1 rfl

theorem backslash_notMem (h : IsPlain row) : '\\' ∉ row := fun hmem ↦ (h _ hmem).2.2.2 rfl

/-- Plain rows put behind one another, with spaces between them, are plain. -/
theorem intercalate (h : ∀ row ∈ rows, IsPlain row) : IsPlain (List.intercalate [' '] rows) := by
  intro c hc
  by_contra hplain
  have hspace : c ∉ [' '] := by
    intro hmem
    obtain rfl := List.mem_singleton.mp hmem
    exact hplain (by decide)
  exact Text.notMem_intercalate hspace (fun row hrow hmem ↦ hplain (h row hrow c hmem)) hc

/-- The names of plain rows are those of each row, in order. -/
theorem names_intercalate (h : ∀ row ∈ rows, IsPlain row) :
    names (List.intercalate [' '] rows) = rows.flatMap names := by
  induction rows with
  | nil => rfl
  | cons row rows ih =>
    have hrow := h row List.mem_cons_self
    have hrows : ∀ r ∈ rows, IsPlain r := fun r hr ↦ h r (List.mem_cons_of_mem _ hr)
    cases rows with
    | nil => simp
    | cons row' rows =>
      rw [List.intercalate_cons_cons, List.append_assoc, List.singleton_append,
        names_append_blank rfl hrow.backslash_notMem (intercalate hrows).backslash_notMem, ih hrows]
      rfl

/-- Joining lines puts plain rows behind one another. -/
theorem joinContinued_intercalate (h : ∀ row ∈ rows, IsPlain row) (rest : List Char) :
    joinContinued (List.intercalate ['\\', '\n'] rows ++ rest) =
      List.intercalate [' '] rows ++ joinContinued rest := by
  induction rows with
  | nil => rfl
  | cons row rows ih =>
    have hrow := (h row List.mem_cons_self).backslash_notMem
    cases rows with
    | nil => simpa using joinContinued_append_of_notMem hrow rest
    | cons row' rows =>
      rw [List.intercalate_cons_cons, List.intercalate_cons_cons, List.append_assoc, List.append_assoc,
        joinContinued_append_of_notMem hrow, List.cons_append, List.singleton_append, joinContinued,
        ih fun r hr ↦ h r (List.mem_cons_of_mem _ hr)]
      simp

/-- The names of the files in a line are those of its row, also if a backslash ends the line. -/
theorem names_filesIn (h : IsPlain row) {opening : List Char}
    (hopening : opening = [] ∨ ∃ target, IsPlain target ∧ opening = target ++ [':']) :
    names (filesIn (opening ++ row)) = names row ∧ names (filesIn (opening ++ row ++ ['\\'])) = names row := by
  apply names_filesIn_of_opening (hopening.imp_right _) h.hash_notMem h.colon_notMem
  · intro hlast
    exact h.backslash_notMem (List.mem_of_getLast? hlast)
  · rintro ⟨target, htarget, rfl⟩
    exact ⟨target, htarget.hash_notMem, htarget.colon_notMem, rfl⟩

/-- The names of the files in all lines are those of each row, in order. -/
theorem names_filesIn_lines (h : ∀ row ∈ rows, IsPlain row) {opening : List Char}
    (hopening : opening = [] ∨ ∃ target, IsPlain target ∧ opening = target ++ [':']) :
    (Text.splitLines (opening ++ List.intercalate ['\\', '\n'] rows ++ ['\n'])).flatMap
      (fun l ↦ names (filesIn l)) = rows.flatMap names := by
  have hends : ∀ c ∈ opening, Text.isLineEnd c = false := by
    rcases hopening with rfl | ⟨target, htarget, rfl⟩
    · simp
    · intro c hc
      rcases List.mem_append.mp hc with hc | hc
      · exact (htarget c hc).1
      · exact List.mem_singleton.mp hc ▸ rfl
  have hline {row : List Char} (hrow : IsPlain row) : ∀ c ∈ opening ++ row, Text.isLineEnd c = false := by
    intro c hc
    exact (List.mem_append.mp hc).elim (hends c) fun hc ↦ (hrow c hc).1
  induction rows generalizing opening with
  | nil =>
    have hrow : IsPlain [] := by simp [IsPlain]
    rw [List.intercalate_nil, Text.splitLines_append (hline hrow), List.flatMap_cons,
      (hrow.names_filesIn hopening).1]
    rfl
  | cons row rows ih =>
    have hrow := h row List.mem_cons_self
    have hrows : ∀ r ∈ rows, IsPlain r := fun r hr ↦ h r (List.mem_cons_of_mem _ hr)
    cases rows with
    | nil =>
      rw [List.intercalate_singleton, Text.splitLines_append (hline hrow), List.flatMap_cons,
        (hrow.names_filesIn hopening).1]
      rfl
    | cons row' rows =>
      -- the line ends behind the backslash, and the next one begins with nothing
      have hcontinued : ∀ c ∈ opening ++ row ++ ['\\'], Text.isLineEnd c = false := by
        intro c hc
        rcases List.mem_append.mp hc with hc | hc
        · exact hline hrow c hc
        · exact List.mem_singleton.mp hc ▸ rfl
      have hcut : opening ++ List.intercalate ['\\', '\n'] (row :: row' :: rows) ++ ['\n'] =
          opening ++ row ++ ['\\'] ++
            '\n' :: ([] ++ List.intercalate ['\\', '\n'] (row' :: rows) ++ ['\n']) := by
        rw [List.intercalate_cons_cons]
        simp
      have hrest := ih hrows (.inl rfl) (by simp) fun hrow c hc ↦ (hrow c (by simpa using hc)).1
      rw [hcut, Text.splitLines_append hcontinued, List.flatMap_cons, (hrow.names_filesIn hopening).2,
        hrest]
      rfl

end IsPlain

section Wrapped

variable (hobject : IsPlain object) (hrows : ∀ row ∈ rows, IsPlain row)

include hobject hrows

/-- A wrapped rule is read as one line, whether or not that is ended, and whatever comes behind it. -/
theorem rules_wrapped :
    (∀ ended, rules (wrapped object rows ended) =
        [sides (object ++ ':' :: List.intercalate [' '] rows)]) ∧
      ∀ rest, rules (wrapped object rows true ++ rest) =
        sides (object ++ ':' :: List.intercalate [' '] rows) :: rules rest := by
  have hjoined := IsPlain.intercalate hrows
  have hline : ∀ c ∈ object ++ ':' :: List.intercalate [' '] rows, Text.isLineEnd c = false ∧ c ≠ '#' := by
    intro c hc
    rcases List.mem_append.mp hc with hc | hc
    · exact (hobject c hc).imp_right And.left
    · rcases List.mem_cons.mp hc with rfl | hc
      · exact ⟨rfl, by decide⟩
      · exact (hjoined c hc).imp_right And.left
  have hjoin (cs : List Char) :
      joinContinued (object ++ ':' :: List.intercalate ['\\', '\n'] rows ++ cs) =
        object ++ ':' :: List.intercalate [' '] rows ++ joinContinued cs := by
    rw [List.append_assoc, joinContinued_append_of_notMem hobject.backslash_notMem, List.cons_append,
      joinContinued_of_ne (by decide), IsPlain.joinContinued_intercalate hrows, List.append_assoc,
      List.cons_append]
  have hends := fun c hc ↦ (hline c hc).1
  have hcomment := dropComment_eq_self fun hmem ↦ (hline _ hmem).2 rfl
  have hended (rest : String) : rules (wrapped object rows true ++ rest) =
      sides (object ++ ':' :: List.intercalate [' '] rows) :: rules rest := by
    rw [rules, rules, wrapped, if_pos rfl, String.toList_append, String.toList_ofList, List.append_assoc,
      hjoin, List.singleton_append, joinContinued_of_ne (by decide), Text.splitLines_append hends,
      List.map_cons, hcomment]
  refine ⟨fun ended ↦ ?_, hended⟩
  cases ended with
  | false =>
    have hwhole := hjoin []
    rw [joinContinued, List.append_nil, List.append_nil] at hwhole
    rw [rules, wrapped, String.toList_ofList, if_neg Bool.false_ne_true, List.append_nil, hwhole,
      Text.splitLines_of_forall hends (by simp), List.map_singleton, hcomment]
  | true => exact (congrArg rules String.append_empty).symm.trans (hended "")

/-- A wrapped rule names the files in its rows. Without any it names its object. -/
theorem sides_wrapped : sides (object ++ ':' :: List.intercalate [' '] rows) =
    if rows.flatMap names = [] then ([], names object) else (names object, rows.flatMap names) := by
  have hnames := IsPlain.names_intercalate hrows
  have hblank : (Text.trim (List.intercalate [' '] rows)).isEmpty = true ↔ rows.flatMap names = [] := by
    rw [← hnames, names_eq_runs (IsPlain.intercalate hrows).backslash_notMem, List.map_eq_nil_iff,
      Text.runs_eq_nil_iff_trim, List.isEmpty_iff]
  simp only [sides_append hobject.colon_notMem, hblank, hnames]

/-- The phony rules of a wrapped rule name the files in its rows. -/
theorem flatMap_rules_phonyRules_wrapped :
    (rules (phonyRules (wrapped object rows true))).flatMap Prod.fst = [] ∧
      (rules (phonyRules (wrapped object rows true))).flatMap Prod.snd = rows.flatMap names := by
  have hcolon : ':' ∉ List.intercalate ['\\', '\n'] rows :=
    Text.notMem_intercalate (by decide) fun row hrow ↦ (hrows row hrow).colon_notMem
  have hcount : (wrapped object rows true).toList.count ':' ≤ 1 := by
    rw [wrapped, String.toList_ofList, List.append_assoc, List.count_append, List.cons_append,
      List.count_cons_self, List.count_append, List.count_eq_zero.mpr hcolon,
      List.count_eq_zero.mpr hobject.colon_notMem]
    decide
  obtain ⟨htargets, hfiles⟩ := flatMap_rules_phonyRules hcount
  refine ⟨htargets, hfiles.trans ?_⟩
  have hlines := IsPlain.names_filesIn_lines hrows (.inr ⟨object, hobject, rfl⟩)
  simpa [wrapped] using hlines

/-- The files that a wrapped rule names are those in its rows, each once and without the object. -/
theorem prerequisites_wrapped (h : rows.flatMap names ≠ []) (ended : Bool) :
    prerequisites (wrapped object rows ended) =
      ((appendNew [] (rows.flatMap names)).filter (· ∉ names object)).map fun n ↦ .ofString (.ofList n) := by
  rw [prerequisites, (rules_wrapped hobject hrows).1, sides_wrapped hobject hrows, if_neg h]
  simp

/-- Phony rules behind a wrapped rule change nothing of what is read. -/
theorem prerequisites_wrapped_append (ended : Bool) :
    prerequisites (wrapped object rows true ++ phonyRules (wrapped object rows true)) =
      prerequisites (wrapped object rows ended) := by
  obtain ⟨hread, hahead⟩ := rules_wrapped hobject hrows
  obtain ⟨htargets, hfiles⟩ := flatMap_rules_phonyRules_wrapped hobject hrows
  have hsame : prerequisites (wrapped object rows true) = prerequisites (wrapped object rows ended) := by
    rw [prerequisites, prerequisites, hread true, hread ended]
  refine Eq.trans (prerequisites_append ?_ htargets ?_) hsame
  · rw [hahead, hread true, List.singleton_append]
  · rw [hfiles, hread true, sides_wrapped hobject hrows]
    intro n hn
    simpa [List.ne_nil_of_mem hn] using hn

theorem return_notMem_wrapped (ended : Bool) : '\r' ∉ (wrapped object rows ended).toList := by
  have hplain {row : List Char} (hrow : IsPlain row) : '\r' ∉ row := fun hmem ↦
    absurd (hrow _ hmem).1 (by decide)
  have hitems : '\r' ∉ List.intercalate ['\\', '\n'] rows :=
    Text.notMem_intercalate (by decide) fun row hrow ↦ hplain (hrows row hrow)
  rw [wrapped, String.toList_ofList]
  cases ended <;> simp [hplain hobject, hitems]

omit hobject in
/-- The last line of a wrapped rule is ended only if that is asked for, or if a continuation is followed by
nothing. -/
theorem getLast?_wrapped (hlast : rows.tail.getLast? ≠ some []) :
    (wrapped object rows false).toList.getLast? ≠ some '\n' := by
  have hitems : (List.intercalate ['\\', '\n'] rows).getLast? ≠ some '\n' := by
    have hfeed {row : List Char} (hrow : row ∈ rows) : '\n' ∉ row := fun hmem ↦
      absurd (hrows row hrow _ hmem).1 (by decide)
    cases rows with
    | nil => simp
    | cons row rest =>
      cases rest with
      | nil =>
        intro hend
        exact hfeed List.mem_cons_self (List.mem_of_getLast? (by simpa using hend))
      | cons row' rest =>
        -- the last row is not empty, so the rows put together end as it does
        obtain ⟨front, last, hconcat⟩ := (List.eq_nil_or_concat' (row' :: rest)).resolve_left (by simp)
        have hne : last ≠ [] := by simpa [hconcat] using hlast
        obtain ⟨text, c, rfl⟩ := (List.eq_nil_or_concat' last).resolve_left hne
        have hmem : text ++ [c] ∈ row :: row' :: rest := by simp [hconcat]
        rw [getLast?_intercalate (show (row :: row' :: rest).getLast? = some (text ++ [c]) by
          simp [hconcat, List.getLast?_cons])]
        intro hend
        obtain rfl := Option.some.inj hend
        exact hfeed hmem (by simp)
  rw [wrapped, String.toList_ofList, if_neg Bool.false_ne_true, List.append_nil, List.getLast?_append,
    List.getLast?_cons, Option.some_or]
  cases hend : (List.intercalate ['\\', '\n'] rows).getLast? with
  | none => decide
  | some c => rwa [hend] at hitems

omit hobject in
/-- The descriptor that is made of a wrapped rule is the rule, its last line ended, and its phony rules. -/
theorem descriptorText_wrapped {ended : Bool} (hlast : ended = true ∨ rows.tail.getLast? ≠ some []) :
    descriptorText (wrapped object rows ended) =
      wrapped object rows true ++ phonyRules (wrapped object rows true) := by
  unfold descriptorText
  cases ended with
  | true =>
    have hend : (wrapped object rows true).toList.getLast? = some '\n' := by
      rw [wrapped, String.toList_ofList]
      exact List.getLast?_concat
    simp [hend]
  | false =>
    have hempty : wrapped object rows false ≠ "" := by
      intro hempty
      simpa [wrapped] using congrArg String.toList hempty
    have hend : (wrapped object rows false).toList.getLast? ≠ some '\n' :=
      getLast?_wrapped hrows (hlast.resolve_left Bool.false_ne_true)
    have hended : wrapped object rows false ++ "\n" = wrapped object rows true :=
      String.toList_inj.mp (by simp [wrapped])
    simp [hempty, hend, hended]

end Wrapped

/-- Phony rules are transparent: behind the listing of one rule, wrapped anyhow, whose names have no colon,
they neither take away a name nor add one. So the descriptor that an object is left with names the same
headers as its listing: what stands in the rows of the rule, each once. -/
theorem phonyRules_transparent (hobject : IsPlain object) (hrows : ∀ row ∈ rows, IsPlain row) :
    prerequisites (wrapped object rows true ++ phonyRules (wrapped object rows true)) =
        prerequisites (wrapped object rows true) ∧
      ∀ ended : Bool, (ended = true ∨ rows.tail.getLast? ≠ some []) →
        prerequisites (descriptorText (wrapped object rows ended)) =
            prerequisites (wrapped object rows ended) ∧
          (rows.flatMap (Text.runs Text.isBlank) ≠ [] → prerequisites (wrapped object rows ended) =
            ((appendNew [] ((rows.flatMap (Text.runs Text.isBlank)).map undouble)).filter
              (· ∉ (Text.runs Text.isBlank object).map undouble)).map fun n ↦ .ofString (.ofList n)) ∧
          ∀ (t : FileTree) (project listing descriptor : Path) (o : ObjectRecord) (m : Timestamp),
            o.listing = .ok listing → o.dependencies = .ok descriptor →
            t.stat (project / listing) = .ok (.file (wrapped object rows ended).toUTF8 m) →
            (∀ m, t.stat (project / descriptor) ≠ .ok (.directory m)) →
            ∃ t', finalize t project o = (t', .ok (some (project / descriptor))) ∧
              headersOf t' project o = .ok (some (headersIn o (wrapped object rows ended))) := by
  have hnames : rows.flatMap names = (rows.flatMap (Text.runs Text.isBlank)).map undouble := by
    rw [List.map_flatMap]
    exact List.flatMap_congr fun row hrow ↦ names_eq_runs (hrows row hrow).backslash_notMem
  have happend := prerequisites_wrapped_append hobject hrows
  refine ⟨happend true, fun ended hlast ↦ ?_⟩
  have htext : descriptorText (wrapped object rows ended) =
      wrapped object rows true ++ phonyRules (wrapped object rows true) :=
    descriptorText_wrapped hrows hlast
  have hread : prerequisites (descriptorText (wrapped object rows ended)) =
      prerequisites (wrapped object rows ended) := by
    rw [htext]
    exact happend ended
  refine ⟨hread, fun hne ↦ ?_, fun t project listing descriptor o m hl hd hstat hfree ↦ ?_⟩
  · rw [prerequisites_wrapped hobject hrows (by simpa [hnames] using hne), hnames,
      names_eq_runs hobject.backslash_notMem]
  · have hreturn := return_notMem_wrapped hobject hrows ended
    obtain ⟨t', hfinalize, -, hthere⟩ := finalize_of_listing hl hd hstat hreturn hfree
    refine ⟨t', hfinalize, ?_⟩
    rw [headersOf_of_text hd hthere (return_notMem_descriptorText hreturn), headersIn, headersIn, hread]

/-- The rows of a rule that goes on in a second line. -/
def wrappedRows : List (List Char) := [" a.c $$x.h ".toList, "  a.h a.c".toList]

/-- The compiler has left that rule as its listing, and has not ended the last line. -/
def wrappedTree : FileTree where
  current := []
  clock := .ofSeconds 100
  nodes := .ofList [
    ((Path.ofString "build").segments, .directory (.ofSeconds 50)),
    ((Path.ofString "build/a.d").segments.reverse,
      .file (wrapped "build/a.o".toList wrappedRows false).toUTF8 (.ofSeconds 100))]

theorem phonyRules_transparent_of_wrapped :
    wrapped "build/a.o".toList wrappedRows false = "build/a.o: a.c $$x.h \\\n  a.h a.c" ∧
      prerequisites (descriptorText (wrapped "build/a.o".toList wrappedRows false)) =
        [.ofString "a.c", .ofString "$x.h", .ofString "a.h"] ∧
      ∃ t', finalize wrappedTree .here compiled = (t', .ok (some (.ofString "build/a.P"))) ∧
        headersOf t' .here compiled = .ok (some [.ofString "$x.h", .ofString "a.h"]) := by
  obtain ⟨-, hread⟩ := phonyRules_transparent (show IsPlain "build/a.o".toList by decide)
    (show ∀ row ∈ wrappedRows, IsPlain row by decide)
  obtain ⟨hsame, hnames, hfinalize⟩ := hread false (.inr (by decide))
  have hfree : (wrappedTree.stat (.here / .ofString "build/a.P")).toOption = none := by decide +kernel
  obtain ⟨t', hfinalize, hheaders⟩ := hfinalize wrappedTree .here (.ofString "build/a.d")
    (.ofString "build/a.P") compiled (.ofSeconds 100) (toOption_eq_some.mp (by decide +kernel))
    (toOption_eq_some.mp (by decide +kernel)) (toOption_eq_some.mp (by decide +kernel))
    fun m hm ↦ Option.some_ne_none _ ((toOption_eq_some.mpr hm).symm.trans hfree)
  have hvalue : prerequisites (wrapped "build/a.o".toList wrappedRows false) =
      [.ofString "a.c", .ofString "$x.h", .ofString "a.h"] :=
    (hnames (by decide +kernel)).trans (by decide +kernel)
  refine ⟨by decide, hsame.trans hvalue, t', hfinalize, hheaders.trans ?_⟩
  rw [headersIn, hvalue]
  decide +kernel

/-- A colon in a name is taken for the end of a target: the source and a header are lost, and two files that do
not exist are found. -/
theorem colon_in_name_loses_headers :
    wrapped "build/a.o".toList [" a.c a.h c:/x.h".toList] true = "build/a.o: a.c a.h c:/x.h\n" ∧
      IsPlain "build/a.o".toList ∧
      (∀ c ∈ " a.c a.h c:/x.h".toList, Text.isLineEnd c = false ∧ c ≠ '#' ∧ c ≠ '\\') ∧
      prerequisites "build/a.o: a.c a.h c:/x.h\n" =
        [.ofString "a.c", .ofString "a.h", .ofString "c:/x.h"] ∧
      phonyRules "build/a.o: a.c a.h c:/x.h\n" = "a.c a.h c:/x.h :\n" ∧
      prerequisites ("build/a.o: a.c a.h c:/x.h\n" ++ phonyRules "build/a.o: a.c a.h c:/x.h\n") =
        [.ofString "c:/x.h", .ofString "/x.h", .ofString ":"] ∧
      prerequisites ("build/a.o: a.c a.h c:/x.h\n" ++ phonyRules "build/a.o: a.c a.h c:/x.h\n") ≠
        prerequisites "build/a.o: a.c a.h c:/x.h\n" := by
  refine ⟨by decide +kernel, by decide +kernel, by simp [Text.isLineEnd], ?_⟩
  decide +kernel

end Listing

end ModuleBuild
