import ModuleBuild.Proofs.Listing.Phony
import ModuleBuild.Proofs.Path.Text
import ModuleBuild.Proofs.Table

/-!
# Listings that are read back

A listing may part its names by spaces and by hidden line breaks in any arrangement (`written`). Reading it
gives its names, each once (`prerequisites_written`), and so does reading the phony rules that are made of it
(`prerequisites_phonyRules`), or both together (`prerequisites_written_append`).
-/

namespace ModuleBuild.Listing

/-- What stands before a name: spaces, one at least, or a hidden line break that may have spaces around
it. -/
inductive Gap where
  | spaces (more : Nat)
  | wrap (before after : Nat)
  deriving DecidableEq, Repr

/-- What a gap is made of. -/
def Gap.items : Gap → List Item
  | spaces more => .space :: List.replicate more .space
  | wrap before after => List.replicate before .space ++ .wrap :: List.replicate after .space

/-- The characters of a path. -/
def spelling (p : Path) : List Char := (toString p).toList

/-- What stands behind the colon of a listing. -/
def itemsOf (entries : List (Gap × Path)) : List Item :=
  entries.flatMap fun e ↦ e.1.items ++ [.name (spelling e.2)]

/-- The listing of an object: its name, a colon, and names with gaps before them. Its last line may be
ended or not. -/
def written (object : Path) (entries : List (Gap × Path)) (ended : Bool) : String :=
  .ofList (escape (spelling object) ++ ':' :: text (itemsOf entries) ++ if ended then ['\n'] else [])

variable {n cs : List Char} {is row : List Item} {i : Item} {object : Path}
  {entries : List (Gap × Path)}

theorem ofString_spelling (p : Path) : Path.ofString (.ofList (spelling p)) = p := by
  rw [spelling, String.ofList_toList, Path.ofString_toString]

theorem spelling_injective : Function.Injective spelling := fun p q h ↦ by
  rw [← ofString_spelling p, h, ofString_spelling]

/-! ### What listings are made of -/

theorem IsSpaced.append (h : ∀ i ∈ row, i.name? = none) (his : IsSpaced is) : IsSpaced (row ++ is) := by
  induction row with
  | nil => exact his
  | cons i row ih =>
    refine List.isChain_cons.mpr ⟨fun j _ ↦ .inl (h i List.mem_cons_self), ?_⟩
    exact ih fun j hj ↦ h j (List.mem_cons_of_mem _ hj)

theorem Gap.name?_of_mem {g : Gap} (h : i ∈ g.items) : i.name? = none := by
  cases g <;> grind [Gap.items, Item.name?]

/-- A gap begins with what is no name. -/
theorem Gap.name?_head (g : Gap) (is : List Item) :
    ∀ i ∈ (g.items ++ is).head?, i.name? = none := by
  have hne : g.items ≠ [] := by cases g <;> simp [items]
  obtain ⟨i, row, hrow⟩ := List.exists_cons_of_ne_nil hne
  intro j hj
  rw [hrow, List.cons_append, List.head?_cons, Option.mem_some_iff] at hj
  exact name?_of_mem (hj ▸ hrow ▸ List.mem_cons_self)

@[simp] theorem namesOf_itemsOf (entries : List (Gap × Path)) :
    namesOf (itemsOf entries) = (entries.map Prod.snd).map spelling := by
  induction entries with
  | nil => rfl
  | cons e entries ih =>
    have hgap : namesOf e.1.items = [] :=
      List.filterMap_eq_nil_iff.mpr fun i hi ↦ Gap.name?_of_mem hi
    rw [itemsOf, List.flatMap_cons, namesOf_append, namesOf_append, hgap, ← itemsOf, ih]
    rfl

theorem isSpaced_itemsOf (entries : List (Gap × Path)) : IsSpaced (itemsOf entries) := by
  induction entries with
  | nil => exact .nil
  | cons e entries ih =>
    rw [itemsOf, List.flatMap_cons, List.append_assoc, ← itemsOf, List.singleton_append]
    refine .append (fun i hi ↦ Gap.name?_of_mem hi) (List.isChain_cons.mpr ⟨fun i hi ↦ .inr ?_, ih⟩)
    cases entries with
    | nil => simp [itemsOf] at hi
    | cons e' entries =>
      rw [itemsOf, List.flatMap_cons, List.append_assoc] at hi
      exact e'.1.name?_head _ i hi

/-- A character of items is one of a name, or belongs to a gap. -/
theorem mem_text {c : Char} (h : c ∈ text is) :
    (∃ n ∈ namesOf is, c ∈ escape n) ∨ c = ' ' ∨ .wrap ∈ is ∧ (c = '\\' ∨ c = '\n') := by
  obtain ⟨i, hi, hc⟩ := List.mem_flatMap.mp h
  cases i with
  | space => exact .inr (.inl (List.mem_singleton.mp hc))
  | wrap => exact .inr (.inr ⟨hi, List.mem_pair.mp hc⟩)
  | name n => exact .inl ⟨n, List.mem_filterMap.mpr ⟨_, hi, rfl⟩, hc⟩

/-- An escaped name ends no line and has neither comment nor colon. -/
theorem IsListable.plain_escape (h : IsListable n) :
    ∀ c ∈ escape n, Text.isLineEnd c = false ∧ c ≠ '#' ∧ c ≠ ':' := by
  intro c hc
  rcases mem_of_mem_escape hc with hc | rfl
  · obtain ⟨hhash, hcolon, -, hblank⟩ := h.plain c hc
    refine ⟨?_, hhash, hcolon⟩
    rw [← Bool.not_eq_true]
    intro hend
    obtain rfl := hblank (Text.isBlank_of_isLineEnd hend)
    exact absurd hend (by decide)
  · exact ⟨rfl, by decide, by decide⟩

/-- So do items on one line. -/
theorem AreListable.plain_text (h : AreListable is) (hwrap : Item.wrap ∉ is) :
    ∀ c ∈ text is, Text.isLineEnd c = false ∧ c ≠ '#' ∧ c ≠ ':' := by
  intro c hc
  rcases mem_text hc with ⟨n, hn, hc⟩ | rfl | ⟨hmem, -⟩
  · exact (h n hn).plain_escape c hc
  · exact ⟨rfl, by decide, by decide⟩
  · exact absurd hmem hwrap

/-- Items on one line do not end with a backslash. -/
theorem AreListable.getLast?_text (h : AreListable is) (hwrap : Item.wrap ∉ is) :
    (text is).getLast? ≠ some '\\' := by
  induction is using List.reverseRecOn with
  | nil => simp
  | append_singleton is i =>
    cases i with
    | wrap => simp at hwrap
    | space => simp [Item.text]
    | name n =>
      obtain ⟨cs, c, hescape, -, hc⟩ := (h n (by simp)).exists_concat
      simpa [Item.text, hescape] using hc

/-! ### The rule itself -/

theorem joinContinued_escape (h : '\\' ∉ n) (cs : List Char) :
    joinContinued (escape n ++ cs) = escape n ++ joinContinued cs := by
  induction n with
  | nil => rfl
  | cons c n ih =>
    obtain ⟨hc, hn⟩ : '\\' ≠ c ∧ '\\' ∉ n := by simpa using h
    by_cases hs : c = ' '
    · subst hs
      rw [escape_space, List.cons_append, List.cons_append, joinContinued_cons (by simp),
        joinContinued_of_ne (by decide), ih hn]
      rfl
    · by_cases hd : c = '$'
      · subst hd
        rw [escape_dollar, List.cons_append, List.cons_append, joinContinued_of_ne (by decide),
          joinContinued_of_ne (by decide), ih hn]
        rfl
      · rw [escape_cons hs hd, List.cons_append, joinContinued_of_ne (Ne.symm hc), ih hn]
        rfl

/-- Hidden line breaks become spaces. -/
theorem joinContinued_text (h : AreListable is) (cs : List Char) :
    joinContinued (text is ++ cs) = text (is.map .joined) ++ joinContinued cs := by
  induction is with
  | nil => rfl
  | cons i is ih =>
    rw [text_cons, List.map_cons, text_cons, List.append_assoc, List.append_assoc]
    cases i with
    | space => rw [Item.text, List.singleton_append, joinContinued_of_ne (by decide), ih h]; rfl
    | wrap => rw [Item.text, List.cons_append, List.singleton_append, joinContinued, ih h]; rfl
    | name n =>
      have hn : '\\' ∉ n := fun hb ↦ ((h n (by simp)).plain _ hb).2.2.1 rfl
      rw [Item.text, joinContinued_escape hn, ih fun m hm ↦ h m (List.mem_cons_of_mem _ hm)]
      rfl

section Rule

variable (hn : IsListable n) (his : AreListable is) (hspaced : IsSpaced is) (hne : namesOf is ≠ [])

include hn his hspaced hne

/-- The sides of a rule on one line are its name and the names of its items. -/
theorem sides_rule (hwrap : Item.wrap ∉ is) :
    sides (dropComment (escape n ++ ':' :: text is)) = ([n], namesOf is) := by
  have hhash : '#' ∉ escape n ++ ':' :: text is := by
    intro h
    rcases List.mem_append.mp h with h | h
    · exact (hn.plain_escape _ h).2.1 rfl
    · rcases List.mem_cons.mp h with h | h
      · exact absurd h (by decide)
      · exact (his.plain_text hwrap _ h).2.1 rfl
  have hname : names (escape n) = [n] := by
    have hrow := names_text (show Item.wrap ∉ [Item.name n] by simp) (List.isChain_singleton _)
      fun m hm ↦ by obtain rfl := List.mem_singleton.mp hm; exact hn
    simpa [Item.text] using hrow
  have hnames := names_text hwrap hspaced his
  have htail : (Text.trim (text is)).isEmpty = false := by
    rw [← Bool.not_eq_true, List.isEmpty_iff]
    intro htrim
    rw [names, htrim] at hnames
    exact hne hnames.symm
  rw [dropComment_eq_self hhash, sides_append fun h ↦ (hn.plain_escape _ h).2.2 rfl, htail, hname, hnames]
  rfl

/-- A rule is read as one line, whatever line breaks are hidden in it. -/
theorem rules_rule : rules (.ofList (escape n ++ ':' :: text is)) = [([n], namesOf is)] ∧
    ∀ rest, rules (.ofList (escape n ++ ':' :: text is ++ '\n' :: rest)) =
      ([n], namesOf is) :: rules (.ofList rest) := by
  have hb : '\\' ∉ n := fun hmem ↦ (hn.plain _ hmem).2.2.1 rfl
  have hjoined : AreListable (is.map .joined) := by
    intro m hm
    rw [namesOf_joined] at hm
    exact his m hm
  have hwrap := wrap_notMem_joined is
  have hsides := sides_rule hn hjoined hspaced.joined (by rwa [namesOf_joined]) hwrap
  rw [namesOf_joined] at hsides
  have hline : ∀ c ∈ escape n ++ ':' :: text (is.map .joined), Text.isLineEnd c = false := by
    intro c hc
    rcases List.mem_append.mp hc with hc | hc
    · exact (hn.plain_escape c hc).1
    · rcases List.mem_cons.mp hc with rfl | hc
      · rfl
      · exact (hjoined.plain_text hwrap c hc).1
  have hjoin (cs : List Char) : joinContinued (escape n ++ ':' :: text is ++ cs) =
      escape n ++ ':' :: text (is.map .joined) ++ joinContinued cs := by
    rw [List.append_assoc, joinContinued_escape hb, List.cons_append, joinContinued_of_ne (by decide),
      joinContinued_text his, List.append_assoc]
    rfl
  refine ⟨?_, fun rest ↦ ?_⟩
  · have hwhole := hjoin []
    rw [List.append_nil, joinContinued, List.append_nil] at hwhole
    rw [rules, String.toList_ofList, hwhole, Text.splitLines_of_forall hline (by simp), List.map_singleton,
      hsides]
  · rw [rules, rules, String.toList_ofList, String.toList_ofList, hjoin, joinContinued_of_ne (by decide),
      Text.splitLines_append hline, List.map_cons, hsides]

end Rule

/-! ### Lines of the listing -/

/-- What a line begins with: nothing, or the name of an object and a colon. -/
def IsOpening (cs : List Char) : Prop := cs = [] ∨ ∃ n, IsListable n ∧ cs = escape n ++ [':']

section Lines

variable {opening : List Char} (hopening : IsOpening opening) (hwrap : Item.wrap ∉ row)
  (hrow : AreListable row)

include hopening hwrap hrow

theorem plain_line : ∀ c ∈ opening ++ text row, Text.isLineEnd c = false ∧ c ≠ '#' := by
  intro c hc
  rcases List.mem_append.mp hc with hc | hc
  · rcases hopening with rfl | ⟨n, hn, rfl⟩
    · simp at hc
    · rcases List.mem_append.mp hc with hc | hc
      · exact (hn.plain_escape c hc).imp_right And.left
      · obtain rfl := List.mem_singleton.mp hc
        exact ⟨rfl, by decide⟩
  · exact (hrow.plain_text hwrap c hc).imp_right And.left

/-- The names of the files in a line are those of its items, also if a backslash ends the line. -/
theorem names_filesIn_line (hspaced : IsSpaced row) : names (filesIn (opening ++ text row)) = namesOf row ∧
    names (filesIn (opening ++ text row ++ ['\\'])) = namesOf row := by
  rw [← names_text hwrap hspaced hrow]
  have hplain := hrow.plain_text hwrap
  refine names_filesIn_of_opening (hopening.imp_right ?_) (fun h ↦ (hplain _ h).2.1 rfl)
    (fun h ↦ (hplain _ h).2.2 rfl) (hrow.getLast?_text hwrap)
  rintro ⟨n, hn, rfl⟩
  exact ⟨escape n, fun h ↦ (hn.plain_escape _ h).2.1 rfl, fun h ↦ (hn.plain_escape _ h).2.2 rfl, rfl⟩

end Lines

/-- The names of the files in all lines are the names of the items. -/
theorem names_filesIn_lines {opening ending : List Char} (hopening : IsOpening opening)
    (hending : ending = [] ∨ ending = ['\n']) (hwrap : Item.wrap ∉ row) (hspaced : IsSpaced (row ++ is))
    (his : AreListable (row ++ is)) :
    (Text.splitLines (opening ++ text row ++ text is ++ ending)).flatMap (fun l ↦ names (filesIn l)) =
      namesOf (row ++ is) := by
  induction is generalizing opening row with
  | nil =>
    rw [List.append_nil] at hspaced his ⊢
    have hends := fun c hc ↦ (plain_line hopening hwrap his c hc).1
    have hfiles := (names_filesIn_line hopening hwrap his hspaced).1
    rw [text_nil, List.append_nil]
    rcases hending with rfl | rfl
    · rw [List.append_nil]
      by_cases hempty : opening ++ text row = []
      · rw [← hfiles, hempty]
        rfl
      · rw [Text.splitLines_of_forall hends hempty, List.flatMap_singleton, hfiles]
    · rw [Text.splitLines_append hends, List.flatMap_cons, hfiles]
      exact List.append_nil _
  | cons i is ih =>
    by_cases hi : i = .wrap
    · -- the line ends here, and the next one begins with nothing
      subst hi
      have hrow : AreListable row := fun m hm ↦ his m (by simp [hm])
      have hends : ∀ c ∈ opening ++ text row ++ ['\\'], Text.isLineEnd c = false := by
        intro c hc
        rcases List.mem_append.mp hc with hc | hc
        · exact (plain_line hopening hwrap hrow c hc).1
        · exact List.mem_singleton.mp hc ▸ rfl
      have hrest := ih (.inl rfl : IsOpening []) List.not_mem_nil hspaced.right_of_append.tail
        fun m hm ↦ his m (by simpa using .inr hm)
      have hcut : opening ++ text row ++ text (.wrap :: is) ++ ending =
          opening ++ text row ++ ['\\'] ++ '\n' :: (text is ++ ending) := by
        simp [Item.text]
      rw [hcut, Text.splitLines_append hends, List.flatMap_cons,
        (names_filesIn_line hopening hwrap hrow hspaced.left_of_append).2, namesOf_append, namesOf_wrap]
      exact congrArg _ hrest
    · have hnext := ih hopening
        (show Item.wrap ∉ row ++ [i] by simpa using ⟨hwrap, Ne.symm hi⟩) (by simpa using hspaced) (by simpa using his)
      simpa using hnext

/-! ### Reading -/

/-- Adding names that are not there yet does not ask for more than which names are the same. -/
theorem appendNew_map_spelling (ps qs : List Path) :
    appendNew (ps.map spelling) (qs.map spelling) = (appendNew ps qs).map spelling := by
  induction qs generalizing ps with
  | nil => rfl
  | cons q qs ih =>
    have hmem : spelling q ∈ ps.map spelling ↔ q ∈ ps := List.mem_map_of_injective spelling_injective
    rw [List.map_cons, appendNew, appendNew]
    simp only [hmem]
    split
    · exact ih ps
    · rw [← ih, List.map_append, List.map_singleton]

/-- What a text names, going by the spellings of its targets and files. -/
theorem prerequisites_eq {s : String} (targets ps : List Path)
    (htargets : (rules s).flatMap Prod.fst = targets.map spelling)
    (hfiles : (rules s).flatMap Prod.snd = ps.map spelling) :
    prerequisites s = ps.eraseDups.filter (· ∉ targets) := by
  have hnew : appendNew [] (ps.map spelling) = ps.eraseDups.map spelling := by
    have hmap := appendNew_map_spelling [] ps
    have hdups := appendNew_eraseDups [] ps
    rw [List.eraseDups_nil, List.nil_append] at hdups
    rwa [List.map_nil, hdups] at hmap
  have hmem : ((fun n ↦ decide (n ∉ targets.map spelling)) ∘ spelling) = fun p ↦ decide (p ∉ targets) := by
    funext p
    rw [Function.comp_apply, decide_eq_decide, List.mem_map_of_injective spelling_injective]
  have hread : (fun n ↦ Path.ofString (.ofList n)) ∘ spelling = id := funext ofString_spelling
  rw [prerequisites, htargets, hfiles, hnew, List.filter_map, hmem, List.map_map, hread, List.map_id]

section Reading

variable (hobject : IsListable (spelling object)) (hentries : ∀ e ∈ entries, IsListable (spelling e.2))

include hentries in
theorem areListable_itemsOf : AreListable (itemsOf entries) := by
  intro n hn
  rw [namesOf_itemsOf, List.map_map] at hn
  obtain ⟨e, he, rfl⟩ := List.mem_map.mp hn
  exact hentries e he

include hobject hentries

/-- A listing has one colon. -/
theorem count_colon_written (ended : Bool) : (written object entries ended).toList.count ':' ≤ 1 := by
  have hname : (escape (spelling object)).count ':' = 0 :=
    List.count_eq_zero.mpr fun h ↦ (hobject.plain_escape _ h).2.2 rfl
  have hitems : (text (itemsOf entries)).count ':' = 0 := by
    refine List.count_eq_zero.mpr fun h ↦ ?_
    rcases mem_text h with ⟨n, hn, hc⟩ | hc | ⟨-, hc⟩
    · exact ((areListable_itemsOf hentries n hn).plain_escape _ hc).2.2 rfl
    · simp at hc
    · simp at hc
  rw [written, String.toList_ofList, List.append_assoc, List.count_append, List.cons_append,
    List.count_cons_self, List.count_append, hname, hitems]
  cases ended <;> decide

/-- The phony rules of a listing name its files. -/
theorem flatMap_rules_phonyRules_written (ended : Bool) :
    (rules (phonyRules (written object entries ended))).flatMap Prod.fst = [] ∧
      (rules (phonyRules (written object entries ended))).flatMap Prod.snd =
        (entries.map Prod.snd).map spelling := by
  obtain ⟨htargets, hfiles⟩ := flatMap_rules_phonyRules (count_colon_written hobject hentries ended)
  refine ⟨htargets, hfiles.trans ?_⟩
  have hopening : IsOpening (escape (spelling object) ++ [':']) := .inr ⟨_, hobject, rfl⟩
  have hending : (if ended then ['\n'] else []) = [] ∨ (if ended then ['\n'] else []) = ['\n'] := by
    cases ended
    · exact .inl rfl
    · exact .inr rfl
  have hspaced : IsSpaced ([] ++ itemsOf entries) := isSpaced_itemsOf entries
  have hlines := names_filesIn_lines hopening hending List.not_mem_nil hspaced (areListable_itemsOf hentries)
  simpa [written] using hlines

/-- Reading the phony rules that are made of a listing gives its names, each once. -/
theorem prerequisites_phonyRules (ended : Bool) :
    prerequisites (phonyRules (written object entries ended)) = (entries.map Prod.snd).eraseDups := by
  obtain ⟨htargets, hfiles⟩ := flatMap_rules_phonyRules_written hobject hentries ended
  rw [prerequisites_eq [] _ htargets hfiles]
  simp

variable (hne : entries ≠ [])

include hne

/-- The rule of a listing is read first, whatever comes behind it. -/
theorem rules_written : rules (written object entries false) =
      [([spelling object], (entries.map Prod.snd).map spelling)] ∧
    ∀ rest, rules (written object entries true ++ rest) =
      ([spelling object], (entries.map Prod.snd).map spelling) :: rules rest := by
  have hnames : namesOf (itemsOf entries) ≠ [] := by simpa using hne
  obtain ⟨hopen, hended⟩ :=
    rules_rule hobject (areListable_itemsOf hentries) (isSpaced_itemsOf entries) hnames
  rw [namesOf_itemsOf] at hopen hended
  refine ⟨by simpa [written] using hopen, fun rest ↦ ?_⟩
  have hcut : written object entries true ++ rest =
      .ofList (escape (spelling object) ++ ':' :: text (itemsOf entries) ++ '\n' :: rest.toList) :=
    String.toList_inj.mp (by simp [written])
  rw [hcut, hended, String.ofList_toList]

/-- Reading a listing gives its names, each once and without the object. -/
theorem prerequisites_written (ended : Bool) : prerequisites (written object entries ended) =
    (entries.map Prod.snd).eraseDups.filter (· ≠ object) := by
  obtain ⟨hopen, hended⟩ := rules_written hobject hentries hne
  have hrules : rules (written object entries ended) =
      [([spelling object], (entries.map Prod.snd).map spelling)] := by
    cases ended with
    | false => exact hopen
    | true => exact (congrArg rules (String.append_empty).symm).trans (hended "")
  rw [prerequisites_eq [object] (entries.map Prod.snd) (by rw [hrules]; rfl) (by rw [hrules]; simp)]
  simp

/-- Reading a listing whose last line is ended and the phony rules behind it gives the names, each once and
without the object. -/
theorem prerequisites_written_append (ended : Bool) :
    prerequisites (written object entries true ++ phonyRules (written object entries ended)) =
      (entries.map Prod.snd).eraseDups.filter (· ≠ object) := by
  obtain ⟨-, hended⟩ := rules_written hobject hentries hne
  obtain ⟨htargets, hfiles⟩ := flatMap_rules_phonyRules_written hobject hentries ended
  have htwice (ps : List Path) : (ps ++ ps).eraseDups = ps.eraseDups := by
    rw [List.eraseDups_append, List.removeAll, List.filter_eq_nil_iff.mpr (by simp), List.eraseDups_nil,
      List.append_nil]
  rw [prerequisites_eq [object] (entries.map Prod.snd ++ entries.map Prod.snd), htwice]
  · simp
  · rw [hended, List.flatMap_cons, htargets]
    rfl
  · rw [hended, List.flatMap_cons, hfiles, List.map_append]

end Reading

end ModuleBuild.Listing
