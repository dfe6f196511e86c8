import ModuleBuild.Proofs.Listing.Encoding

/-!
# Phony rules

Of each line of a listing one phony rule is made, which has the files of that line. What phony rules name
is therefore what stands in the lines of the listing, once their targets and backslashes are taken away
(`rules_phonyRules`).
-/

namespace ModuleBuild.Text

variable {c : Char} {cs ds l : List Char}

/-- The ends of lines are blanks. -/
theorem isBlank_of_isLineEnd (h : isLineEnd c) : isBlank c := by
  unfold isLineEnd at h
  unfold isBlank
  simp only [Bool.or_eq_true, Bool.and_eq_true, decide_eq_true_eq, beq_iff_eq] at h ⊢
  omega

/-- A character that does not end a line belongs to the line behind it. -/
theorem splitLines_cons (h : isLineEnd c = false) (cs : List Char) :
    splitLines (c :: cs) = match splitLines cs with
      | [] => [[c]]
      | l :: ls => (c :: l) :: ls := by
  rw [splitLines, h]
  · rfl
  · rintro cs rfl
    exact absurd h (by decide)

/-- A line feed ends a line. -/
theorem splitLines_append (h : ∀ c ∈ l, isLineEnd c = false) (cs : List Char) :
    splitLines (l ++ '\n' :: cs) = l :: splitLines cs := by
  induction l with
  | nil => rfl
  | cons c l ih =>
    rw [List.cons_append, splitLines_cons (h c List.mem_cons_self),
      ih fun d hd ↦ h d (List.mem_cons_of_mem _ hd)]

/-- A text without an end of line is one line, unless it is empty. -/
theorem splitLines_of_forall (h : ∀ c ∈ l, isLineEnd c = false) (hl : l ≠ []) : splitLines l = [l] := by
  induction l with
  | nil => exact absurd rfl hl
  | cons c l ih =>
    rw [splitLines_cons (h c List.mem_cons_self)]
    cases l with
    | nil => rfl
    | cons d l => rw [ih (fun d hd ↦ h d (List.mem_cons_of_mem _ hd)) (by simp)]

/-- A line is part of its text, and has no end of line. -/
theorem sublist_of_mem_splitLines (h : l ∈ splitLines cs) :
    l.Sublist cs ∧ ∀ c ∈ l, isLineEnd c = false := by
  fun_induction splitLines cs generalizing l with
  | case1 => simp at h
  | case2 cs ih =>
    rcases List.mem_cons.mp h with rfl | h
    · exact ⟨List.nil_sublist _, by simp⟩
    · exact ⟨.cons _ (.cons _ (ih h).1), (ih h).2⟩
  | case3 c cs _ _ ih =>
    rcases List.mem_cons.mp h with rfl | h
    · exact ⟨List.nil_sublist _, by simp⟩
    · exact ⟨.cons _ (ih h).1, (ih h).2⟩
  | case4 c cs _ hc hnil ih =>
    obtain rfl := List.mem_singleton.mp h
    exact ⟨.cons_cons _ (List.nil_sublist _), by simpa using hc⟩
  | case5 c cs _ hc l' ls hcons ih =>
    rcases List.mem_cons.mp h with rfl | h
    · obtain ⟨hsublist, hends⟩ := ih (hcons ▸ List.mem_cons_self)
      exact ⟨.cons_cons _ hsublist, by simpa using ⟨by simpa using hc, hends⟩⟩
    · obtain ⟨hsublist, hends⟩ := ih (hcons ▸ List.mem_cons_of_mem _ h)
      exact ⟨.cons _ hsublist, hends⟩

end ModuleBuild.Text

namespace ModuleBuild.Listing

variable {c : Char} {l cs ds : List Char}

/-! ### Single lines -/

/-- The files in a line of a listing, as they are written there. -/
def filesIn (line : List Char) : List Char :=
  Text.trimEnd (dropContinuation (dropTarget (dropComment line)))

theorem phonyRule_eq (l : List Char) :
    phonyRule l = if filesIn l = [] then [] else filesIn l ++ [' ', ':', '\n'] := by
  unfold phonyRule
  split
  · next hnone => exact (if_pos hnone).symm
  · next hsome => exact (if_neg hsome).symm

theorem hash_notMem_dropComment (l : List Char) : '#' ∉ dropComment l :=
  fun h ↦ by simpa using List.mem_takeWhile_imp h

theorem dropComment_eq_self (h : '#' ∉ l) : dropComment l = l :=
  List.takeWhile_eq_self_iff.mpr fun c hc ↦ by
    have hne : c ≠ '#' := fun heq ↦ h (heq ▸ hc)
    simpa using hne

/-- A text up to its first colon, and what follows that. -/
theorem dropWhile_colon (h : ':' ∉ l) (cs : List Char) :
    (l ++ ':' :: cs).dropWhile (· != ':') = ':' :: cs ∧ (l ++ ':' :: cs).takeWhile (· != ':') = l := by
  have hall : ∀ c ∈ l, (c != ':') = true := fun c hc ↦ by
    have hne : c ≠ ':' := fun heq ↦ h (heq ▸ hc)
    simpa using hne
  rw [List.dropWhile_append_of_pos hall, List.takeWhile_append_of_pos hall]
  simp

theorem dropTarget_append (h : ':' ∉ l) (cs : List Char) :
    dropTarget (l ++ ':' :: cs) = cs.dropWhile (· == ' ') := by
  rw [dropTarget, (dropWhile_colon h cs).1]

theorem dropTarget_eq_self (h : ':' ∉ l) : dropTarget l = l := by
  have hall : ∀ c ∈ l, (c != ':') = true := fun c hc ↦ by
    have hne : c ≠ ':' := fun heq ↦ h (heq ▸ hc)
    simpa using hne
  rw [dropTarget, List.dropWhile_eq_nil_iff.mpr hall]

/-- Of one colon at most, none is left behind the target. -/
theorem colon_notMem_dropTarget (h : l.count ':' ≤ 1) : ':' ∉ dropTarget l := by
  by_cases hmem : ':' ∈ l
  · obtain ⟨as, bs, rfl, has⟩ := List.eq_append_cons_of_mem hmem
    rw [dropTarget_append has]
    refine fun hbs ↦ ?_
    have hcount := List.count_pos_iff.mpr ((List.dropWhile_suffix _).subset hbs)
    rw [List.count_append, List.count_cons_self] at h
    omega
  · rwa [dropTarget_eq_self hmem]

theorem dropTarget_sublist (l : List Char) : (dropTarget l).Sublist l := by
  by_cases hmem : ':' ∈ l
  · obtain ⟨as, bs, rfl, has⟩ := List.eq_append_cons_of_mem hmem
    rw [dropTarget_append has]
    exact (List.dropWhile_sublist _).trans
      ((List.sublist_cons_self _ _).trans (List.sublist_append_right _ _))
  · rw [dropTarget_eq_self hmem]

theorem dropContinuation_sublist (l : List Char) : (dropContinuation l).Sublist l := by
  unfold dropContinuation
  split
  · next rest hrest =>
    rw [← List.reverse_reverse l, hrest]
    exact ((List.dropWhile_sublist _).trans (List.sublist_cons_self _ _)).reverse
  · exact .refl _

theorem filesIn_sublist (l : List Char) : (filesIn l).Sublist (dropTarget (dropComment l)) := by
  refine .trans ?_ (dropContinuation_sublist _)
  conv_rhs => rw [← List.reverse_reverse (dropContinuation _)]
  exact (List.dropWhile_sublist _).reverse

/-- The names in a line are those of its files. -/
theorem names_filesIn (l : List Char) :
    names (filesIn l) = names (dropContinuation (dropTarget (dropComment l))) :=
  names_dropWhile_reverse (fun _ h ↦ h) _

theorem isBlank_of_eq_space (c : Char) (h : (c == ' ') = true) : Text.isBlank c :=
  eq_of_beq h ▸ rfl

/-- The backslash at the end of a line is no part of a name. -/
theorem names_dropContinuation_concat (cs : List Char) :
    names (dropContinuation (cs ++ ['\\'])) = names cs := by
  unfold dropContinuation
  rw [List.reverse_append, List.reverse_singleton, List.singleton_append]
  exact names_dropWhile_reverse isBlank_of_eq_space cs

theorem dropContinuation_eq_self (h : cs.getLast? ≠ some '\\') : dropContinuation cs = cs := by
  unfold dropContinuation
  split
  · next rest hrest =>
    rw [← List.head?_reverse, hrest] at h
    simp at h
  · rfl

/-- The names of the files in a line are those behind its target, if it has one, also if a backslash ends
the line. -/
theorem names_filesIn_of_opening {opening : List Char}
    (hopening : opening = [] ∨ ∃ target, '#' ∉ target ∧ ':' ∉ target ∧ opening = target ++ [':'])
    (hhash : '#' ∉ cs) (hcolon : ':' ∉ cs) (hlast : cs.getLast? ≠ some '\\') :
    names (filesIn (opening ++ cs)) = names cs ∧ names (filesIn (opening ++ cs ++ ['\\'])) = names cs := by
  have hline : '#' ∉ opening ++ cs := by
    rcases hopening with rfl | ⟨target, htarget, -, rfl⟩
    · exact hhash
    · simpa using ⟨htarget, hhash⟩
  -- without its target a line is what stands behind it, perhaps with fewer spaces in front
  obtain ⟨ds, hds, hlast, hdrop, hdrop'⟩ : ∃ ds, names ds = names cs ∧ ds.getLast? ≠ some '\\' ∧
      dropTarget (opening ++ cs) = ds ∧ dropTarget (opening ++ cs ++ ['\\']) = ds ++ ['\\'] := by
    rcases hopening with rfl | ⟨target, -, htarget, rfl⟩
    · exact ⟨cs, rfl, hlast, dropTarget_eq_self hcolon, dropTarget_eq_self (by simpa using hcolon)⟩
    · refine ⟨cs.dropWhile (· == ' '), names_dropWhile isBlank_of_eq_space cs, ?_, ?_, ?_⟩
      · intro h
        obtain ⟨front, hfront⟩ := List.dropWhile_suffix (· == ' ') (l := cs)
        refine hlast ?_
        rw [← hfront, List.getLast?_append, h]
        rfl
      · rw [List.append_assoc, List.singleton_append, dropTarget_append htarget]
      · rw [List.append_assoc, List.append_assoc, List.singleton_append, dropTarget_append htarget,
          List.dropWhile_append]
        split
        · next hall => rw [List.isEmpty_iff.mp hall]; rfl
        · rfl
  rw [names_filesIn, names_filesIn, dropComment_eq_self hline, dropComment_eq_self (by simpa using hline),
    hdrop, hdrop', dropContinuation_eq_self hlast, names_dropContinuation_concat]
  exact ⟨hds, hds⟩

/-! ### Rules -/

/-- A character stays when lines are joined, unless it is a backslash before a line feed. -/
theorem joinContinued_cons (h : c = '\\' → cs.head? ≠ some '\n') :
    joinContinued (c :: cs) = c :: joinContinued cs := by
  rw [joinContinued]
  rintro ds rfl rfl
  exact h rfl rfl

theorem joinContinued_of_ne (h : c ≠ '\\') (cs : List Char) :
    joinContinued (c :: cs) = c :: joinContinued cs :=
  joinContinued_cons fun heq ↦ absurd heq h

/-- Where no line ends, no lines are joined. -/
theorem joinContinued_append (h : '\n' ∉ cs) (hc : c ≠ '\n') (ds : List Char) :
    joinContinued (cs ++ c :: ds) = cs ++ joinContinued (c :: ds) := by
  induction cs with
  | nil => rfl
  | cons d cs ih =>
    have hcs : '\n' ∉ cs := fun hmem ↦ h (List.mem_cons_of_mem _ hmem)
    rw [List.cons_append, joinContinued_cons, ih hcs, List.cons_append]
    intro _
    cases cs with
    | nil => simpa using hc
    | cons d' cs =>
      rintro heq
      obtain rfl := Option.some.inj heq
      exact hcs List.mem_cons_self

/-- The sides of a rule are what stands before its colon and behind it. -/
theorem sides_append (h : ':' ∉ l) (tail : List Char) : sides (l ++ ':' :: tail) =
    if (Text.trim tail).isEmpty then ([], names l) else (names l, names tail) := by
  obtain ⟨hdrop, htake⟩ := dropWhile_colon h tail
  simp only [sides, hdrop, htake]

/-- A rule without prerequisites names its files. -/
theorem sides_of_files (h : '#' ∉ cs) (h' : ':' ∉ cs) :
    sides (dropComment (cs ++ [' ', ':'])) = ([], names cs) := by
  rw [dropComment_eq_self (by simpa using h), ← List.singleton_append, ← List.append_assoc,
    sides_append (by simpa using h'), names_concat_blank rfl]
  rfl

/-- Phony rules have the characters of the listing, and those that make up rules. -/
theorem mem_phonyRules {text : String} (h : c ∈ (phonyRules text).toList) :
    c ∈ text.toList ∨ c ∈ [' ', ':', '\n'] := by
  rw [phonyRules, String.toList_ofList] at h
  obtain ⟨l, hl, hc⟩ := List.mem_flatMap.mp h
  rw [phonyRule_eq] at hc
  split at hc
  · simp at hc
  · rcases List.mem_append.mp hc with hc | hc
    · have hsublist := (filesIn_sublist l).trans (dropTarget_sublist _)
      refine .inl ((Text.sublist_of_mem_splitLines hl).1.subset ?_)
      exact (List.takeWhile_sublist _).subset (hsublist.subset hc)
    · exact .inr hc

/-- Phony rules name the files in the lines of the listing, if that has one rule at most. -/
theorem rules_phonyRules {text : String} (h : text.toList.count ':' ≤ 1) :
    rules (phonyRules text) =
      (((Text.splitLines text.toList).map filesIn).filter (· ≠ [])).map fun files ↦ ([], names files) := by
  have hlines : ∀ l ∈ Text.splitLines text.toList,
      (∀ c ∈ l, Text.isLineEnd c = false) ∧ l.count ':' ≤ 1 := fun l hl ↦ by
    obtain ⟨hsublist, hends⟩ := Text.sublist_of_mem_splitLines hl
    exact ⟨hends, (hsublist.count_le _).trans h⟩
  rw [rules, phonyRules, String.toList_ofList]
  generalize Text.splitLines text.toList = ls at hlines ⊢
  induction ls with
  | nil => rfl
  | cons l ls ih =>
    obtain ⟨hends, hcount⟩ := hlines l List.mem_cons_self
    have ih := ih fun l' hl' ↦ hlines l' (List.mem_cons_of_mem _ hl')
    rw [List.flatMap_cons, phonyRule_eq, List.map_cons]
    by_cases hfiles : filesIn l = []
    · rw [if_pos hfiles, List.nil_append, ih, List.filter_cons_of_neg (by simpa using hfiles)]
    · have hsublist := filesIn_sublist l
      have hsub := hsublist.trans (dropTarget_sublist _)
      have hhash : '#' ∉ filesIn l := fun hmem ↦ hash_notMem_dropComment l (hsub.subset hmem)
      have hdrop : (dropComment l).count ':' ≤ 1 :=
        ((List.takeWhile_sublist _).count_le _).trans hcount
      have hcolon : ':' ∉ filesIn l := fun hmem ↦
        colon_notMem_dropTarget hdrop (hsublist.subset hmem)
      have hline : ∀ c ∈ filesIn l ++ [' ', ':'], Text.isLineEnd c = false := by
        intro c hc
        rcases List.mem_append.mp hc with hc | hc
        · exact hends c ((List.takeWhile_sublist _).subset (hsub.subset hc))
        · rcases List.mem_pair.mp hc with rfl | rfl <;> rfl
      have hfeed : '\n' ∉ filesIn l := fun hmem ↦
        absurd (hline _ (List.mem_append_left _ hmem)) (by decide)
      have hjoin (cs : List Char) : joinContinued (filesIn l ++ [' ', ':', '\n'] ++ cs) =
          filesIn l ++ [' ', ':'] ++ '\n' :: joinContinued cs := by
        rw [List.append_assoc, List.append_assoc, List.cons_append, joinContinued_append hfeed (by decide),
          joinContinued_of_ne (by decide), List.cons_append, joinContinued_of_ne (by decide),
          List.cons_append, joinContinued_of_ne (by decide)]
        rfl
      rw [if_neg hfiles, List.filter_cons_of_pos (by simpa using hfiles), List.map_cons, ← ih,
        ← sides_of_files hhash hcolon, hjoin, Text.splitLines_append hline, List.map_cons]

/-- Phony rules have no targets, and their files are those in the lines of the listing. -/
theorem flatMap_rules_phonyRules {text : String} (h : text.toList.count ':' ≤ 1) :
    (rules (phonyRules text)).flatMap Prod.fst = [] ∧ (rules (phonyRules text)).flatMap Prod.snd =
      (Text.splitLines text.toList).flatMap fun l ↦ names (filesIn l) := by
  rw [rules_phonyRules h]
  induction Text.splitLines text.toList with
  | nil => exact ⟨rfl, rfl⟩
  | cons l ls ih =>
    obtain ⟨hfst, hsnd⟩ := ih
    rw [List.map_cons, List.flatMap_cons]
    by_cases hfiles : filesIn l = []
    · rw [List.filter_cons_of_neg (by simpa using hfiles), hfiles]
      exact ⟨hfst, hsnd⟩
    · rw [List.filter_cons_of_pos (by simpa using hfiles), List.map_cons, List.flatMap_cons,
        List.flatMap_cons, hfst, hsnd]
      exact ⟨rfl, rfl⟩

end ModuleBuild.Listing
