import ModuleBuild.Text.Lines

/-!
# Rows and lines

A text without carriage returns is read as it is (`normalizeNewlines_eq_self`). What stands between its line feeds are
its rows; its lines are the rows, each with the line feed behind it (`lines_intercalate`). Where a line starts a text
can be cut, and the lines of both parts are its lines (`lines_append`).
-/

namespace ModuleBuild.Text

variable {cs row : List Char}

/-- A text without carriage returns is read as it is. -/
theorem normalizeNewlines_eq_self (h : '\r' ∉ cs) : normalizeNewlines cs = cs := by
  induction cs with
  | nil => rfl
  | cons c cs ih =>
    obtain ⟨hc, hcs⟩ : '\r' ≠ c ∧ '\r' ∉ cs := by simpa using h
    rw [normalizeNewlines, ih hcs]
    · rintro ds rfl
      exact absurd rfl hc
    · exact Ne.symm hc

/-- No row has a line feed. -/
theorem notMem_of_mem_splitOn {α : Type} [DecidableEq α] {a : α} {xs row : List α} (h : row ∈ xs.splitOn a) :
    a ∉ row := by
  induction xs generalizing row with
  | nil =>
    obtain rfl : row = [] := by simpa using h
    exact List.not_mem_nil
  | cons x xs ih =>
    rw [List.splitOn_cons_eq_if_modifyHead] at h
    split at h
    · rcases List.mem_cons.mp h with rfl | h
      · exact List.not_mem_nil
      · exact ih h
    · next hx =>
      obtain ⟨r, rs, hsplit⟩ := List.exists_cons_of_ne_nil (List.splitOn_ne_nil a xs)
      rw [hsplit] at h ih
      rcases List.mem_cons.mp h with rfl | h
      · have hr := ih List.mem_cons_self
        simpa [Ne.symm (by simpa using hx : ¬x = a)] using hr
      · exact ih (List.mem_cons_of_mem _ h)

/-- What stands before the first separator belongs to the first row. -/
theorem splitOn_append {α : Type} [DecidableEq α] {a : α} {xs : List α} (h : a ∉ xs) (ys : List α) :
    (xs ++ ys).splitOn a = (ys.splitOn a).modifyHead (xs ++ ·) := by
  induction xs with
  | nil =>
    obtain ⟨row, rows, hsplit⟩ := List.exists_cons_of_ne_nil (List.splitOn_ne_nil a ys)
    rw [List.nil_append, hsplit]
    rfl
  | cons x xs ih =>
    obtain ⟨hx, hxs⟩ : a ≠ x ∧ a ∉ xs := by simpa using h
    rw [List.cons_append, List.splitOn_cons_eq_if_modifyHead, if_neg (by simpa using Ne.symm hx), ih hxs,
      List.modifyHead_modifyHead]
    rfl

/-- Texts with a separator between them have the rows of each text, in order. -/
theorem splitOn_intercalate {α : Type} [DecidableEq α] {a : α} {texts : List (List α)} (h : texts ≠ []) :
    (List.intercalate [a] texts).splitOn a = texts.flatMap (List.splitOn a) := by
  induction texts with
  | nil => exact absurd rfl h
  | cons xs texts ih =>
    cases texts with
    | nil => simp
    | cons ys texts =>
      rw [List.intercalate_cons_cons, List.append_assoc, List.singleton_append, List.splitOn_append_cons_self,
        ih (by simp)]
      rfl

/-- What is in no row and not between rows is not in the rows put together. -/
theorem notMem_intercalate {c : Char} {rows : List (List Char)} (hcs : c ∉ cs) (h : ∀ row ∈ rows, c ∉ row) :
    c ∉ List.intercalate cs rows := by
  induction rows with
  | nil => simp
  | cons row rows ih =>
    have hrow := h row List.mem_cons_self
    cases rows with
    | nil => simpa using hrow
    | cons row' rows =>
      have hrest := ih fun r hr ↦ h r (List.mem_cons_of_mem _ hr)
      rw [List.intercalate_cons_cons]
      simp [hrow, hcs, hrest]

/-- A row that is ended is the first line. -/
theorem lines_append_cons (h : '\n' ∉ row) (cs : List Char) :
    lines (row ++ '\n' :: cs) = (row ++ ['\n']) :: lines cs := by
  induction row with
  | nil => rfl
  | cons c row ih =>
    obtain ⟨hc, hrow⟩ : '\n' ≠ c ∧ '\n' ∉ row := by simpa using h
    rw [List.cons_append, lines, if_neg (Ne.symm hc), ih hrow]
    rfl

/-- A row at the end of the text is a line if there is something in it. -/
theorem lines_eq_singleton (h : '\n' ∉ row) (hne : row ≠ []) : lines row = [row] := by
  induction row with
  | nil => exact absurd rfl hne
  | cons c row ih =>
    obtain ⟨hc, hrow⟩ : '\n' ≠ c ∧ '\n' ∉ row := by simpa using h
    rw [lines, if_neg (Ne.symm hc)]
    cases row with
    | nil => rfl
    | cons d row => rw [ih hrow (by simp)]

/-- The lines of rows that are put together, the last of them ended or not, are those rows, each with what ends it. -/
theorem lines_intercalate {rows : List (List Char)} {last : List Char} (hrows : ∀ row ∈ rows, '\n' ∉ row)
    (hlast : '\n' ∉ last) (hne : last ≠ []) (ended : Bool) :
    lines (List.intercalate ['\n'] (rows ++ [last]) ++ if ended then ['\n'] else []) =
      rows.map (· ++ ['\n']) ++ [last ++ if ended then ['\n'] else []] := by
  induction rows with
  | nil =>
    cases ended with
    | true => simpa [lines] using lines_append_cons hlast []
    | false => simpa using lines_eq_singleton hlast hne
  | cons row rows ih =>
    have hcut : List.intercalate ['\n'] (row :: rows ++ [last]) =
        row ++ '\n' :: List.intercalate ['\n'] (rows ++ [last]) := by
      cases rows <;> simp [List.intercalate_cons_cons]
    rw [hcut, List.append_assoc, List.cons_append, lines_append_cons (hrows row List.mem_cons_self),
      ih fun r hr ↦ hrows r (List.mem_cons_of_mem _ hr)]
    rfl

/-! ### Cutting a text where a line starts -/

/-- A line starts where a text is cut in two: the text begins there, or a line is ended in front of the cut. A carriage
return and a line feed behind it are not parted. -/
def IsLineStart (front back : List Char) : Prop :=
  front = [] ∨ front.getLast? = some '\n' ∨ front.getLast? = some '\r' ∧ back.head? ≠ some '\n'

/-- The text with its last line ended. -/
def ended (cs : List Char) : List Char :=
  if cs = [] ∨ cs.getLast? = some '\n' ∨ cs.getLast? = some '\r' then cs else cs ++ ['\n']

variable {front back : List Char}

/-- Where a line starts, anything but a line feed may stand instead. -/
theorem IsLineStart.congr (h : IsLineStart front back) {back' : List Char} (h' : back'.head? ≠ some '\n') :
    IsLineStart front back' :=
  h.imp_right (Or.imp_right fun hreturn ↦ ⟨hreturn.1, h'⟩)

theorem isLineStart_ended (cs : List Char) : IsLineStart (ended cs) [] := by
  unfold ended
  split
  · next hcs => exact hcs.imp_right (Or.imp_right fun hreturn ↦ ⟨hreturn, by simp⟩)
  · exact .inr (.inl List.getLast?_concat)

/-- Line ends are made uniform in both parts of a text, unless a line end is parted. -/
theorem normalizeNewlines_append (h : front.getLast? ≠ some '\r' ∨ back.head? ≠ some '\n') :
    normalizeNewlines (front ++ back) = normalizeNewlines front ++ normalizeNewlines back := by
  have hrest {c : Char} {cs : List Char} (h : (c :: cs).getLast? ≠ some '\r' ∨ back.head? ≠ some '\n') :
      cs.getLast? ≠ some '\r' ∨ back.head? ≠ some '\n' := by
    cases cs with
    | nil => simp
    | cons d ds => simpa using h
  induction front using normalizeNewlines.induct with
  | case1 => rfl
  | case2 cs ih =>
    simp only [List.cons_append, normalizeNewlines]
    rw [ih (hrest (hrest h))]
  | case3 cs hfeed ih =>
    have hnext : ∀ ds, cs ++ back = '\n' :: ds → False := by
      intro ds hds
      cases cs with
      | nil => simp_all
      | cons c cs => exact hfeed cs (by rw [(List.cons.inj hds).1])
    rw [List.cons_append, normalizeNewlines.eq_3 _ hnext, normalizeNewlines.eq_3 _ hfeed, ih (hrest h),
      List.cons_append]
  | case4 c cs hpair hreturn ih =>
    have hpair' : ∀ ds, c = '\r' → cs ++ back = '\n' :: ds → False := fun _ hc _ ↦ hreturn hc
    rw [List.cons_append, normalizeNewlines.eq_4 _ _ hpair' hreturn, normalizeNewlines.eq_4 _ _ hpair hreturn,
      ih (hrest h), List.cons_append]

/-- Line ends that are made uniform end what they ended. -/
theorem getLast?_normalizeNewlines (cs : List Char) :
    (normalizeNewlines cs).getLast? = cs.getLast?.map fun c ↦ if c = '\r' then '\n' else c := by
  induction cs using normalizeNewlines.induct with
  | case1 => rfl
  | case2 cs ih =>
    rw [normalizeNewlines, List.getLast?_cons, ih, List.getLast?_cons, List.getLast?_cons]
    cases cs.getLast? <;> simp
  | case3 cs hfeed ih =>
    rw [normalizeNewlines.eq_3 _ hfeed, List.getLast?_cons, ih, List.getLast?_cons]
    cases cs.getLast? <;> simp
  | case4 c cs hpair hreturn ih =>
    have hc : c ≠ '\r' := hreturn
    rw [normalizeNewlines.eq_4 _ _ hpair hreturn, List.getLast?_cons, ih, List.getLast?_cons]
    cases cs.getLast? <;> simp [hc]

/-- The lines of a text are those of its parts, if the first part ends a line. -/
theorem lines_append (h : front = [] ∨ front.getLast? = some '\n') (back : List Char) :
    lines (front ++ back) = lines front ++ lines back := by
  induction front with
  | nil => rfl
  | cons c cs ih =>
    have hrest : cs = [] ∨ cs.getLast? = some '\n' := by
      cases cs with
      | nil => exact .inl rfl
      | cons d ds => simpa using h
    rw [List.cons_append, lines, lines, ih hrest]
    split
    · rfl
    · next hc =>
      obtain ⟨d, ds, rfl⟩ : ∃ d ds, cs = d :: ds := by
        cases cs with
        | nil => simp [hc] at h
        | cons d ds => exact ⟨d, ds, rfl⟩
      cases hlines : lines (d :: ds) with
      | nil =>
        have hflat := flatten_lines (d :: ds)
        simp [hlines] at hflat
      | cons l ls => rfl

/-- To end the last line of a text changes no other line. -/
theorem lines_concat_newline (hne : cs ≠ []) (h : cs.getLast? ≠ some '\n') :
    ∃ ls l, lines cs = ls ++ [l] ∧ lines (cs ++ ['\n']) = ls ++ [l ++ ['\n']] := by
  induction cs with
  | nil => exact absurd rfl hne
  | cons c cs ih =>
    cases cs with
    | nil =>
      have hc : c ≠ '\n' := by simpa using h
      exact ⟨[], [c], by simp [lines, hc], by simp [lines, hc]⟩
    | cons d ds =>
      obtain ⟨ls, l, hlines, hended⟩ := ih (by simp) (by simpa using h)
      rw [List.cons_append, lines.eq_2 c, lines.eq_2 c, hlines, hended]
      split
      · exact ⟨['\n'] :: ls, l, rfl, rfl⟩
      · cases ls with
        | nil => exact ⟨[], c :: l, rfl, rfl⟩
        | cons l' ls => exact ⟨(c :: l') :: ls, l, rfl, rfl⟩

end ModuleBuild.Text
