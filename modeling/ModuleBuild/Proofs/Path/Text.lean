import ModuleBuild.Path.Basic

/-!
# How paths are spelled

A path can be read back from its text (`ofString_toString`), so that different paths have different texts
(`toString_inj`).
-/

namespace ModuleBuild.Path

/-- What stands between slashes is read as segments. -/
theorem segments_ofString {s : String} {parts : List (List Char)}
    (hs : s.toList = ['/'].intercalate parts) (hne : parts ≠ []) (hparts : ∀ cs ∈ parts, '/' ∉ cs) :
    (ofString s).segments = parts.filterMap fun cs ↦ Segment.ofString? (.ofList cs) := by
  rw [ofString, hs, List.splitOn_intercalate '/' hparts hne]

/-- Segments are read back from their texts. -/
theorem filterMap_segments (ss : List Segment) :
    ((ss.map fun s ↦ s.text.toList).filterMap fun cs ↦ Segment.ofString? (.ofList cs)) = ss := by
  induction ss with
  | nil => rfl
  | cons s ss ih => simp [ih]

theorem toList_anchor_append (a : Anchor) (ss : List Segment) :
    (a.text ++ "/".intercalate (ss.map Segment.text)).toList =
      a.text.toList ++ ['/'].intercalate (ss.map fun s ↦ s.text.toList) := by
  rw [String.toList_append, String.toList_intercalate, List.map_map]
  rfl

/-- Segments with slashes between them do not begin with a slash. -/
theorem takeWhile_intercalate_segments (ss : List Segment) :
    (['/'].intercalate (ss.map fun s ↦ s.text.toList)).takeWhile (· == '/') = [] := by
  cases ss with
  | nil => rfl
  | cons s ss =>
    obtain ⟨c, cs, hs⟩ : ∃ c cs, s.text.toList = c :: cs :=
      List.exists_cons_of_ne_nil (by simpa using s.isValid.1)
    have hc : c ≠ '/' := fun hc ↦ s.isValid.2.2 (by simp [hs, hc])
    cases ss with
    | nil => simp [hs, hc]
    | cons s' ss => simp [hs, hc, List.intercalate_cons_cons]

/-- The slashes in front tell the anchor. -/
theorem anchor_ofString_append (a : Anchor) (ss : List Segment) :
    (ofString (a.text ++ "/".intercalate (ss.map Segment.text))).anchor = a := by
  have htake := takeWhile_intercalate_segments ss
  rw [ofString, toList_anchor_append]
  cases a <;> simp [Anchor.text, Anchor.ofSlashes, htake]

/-- Each slash in front of segments stands behind an empty text. -/
theorem exists_intercalate_anchor (a : Anchor) (s : Segment) (ss : List Segment) :
    ∃ lead : List (List Char), (∀ cs ∈ lead, cs = []) ∧
      a.text.toList ++ ['/'].intercalate ((s :: ss).map fun s ↦ s.text.toList) =
        ['/'].intercalate (lead ++ (s :: ss).map fun s ↦ s.text.toList) := by
  cases a with
  | here => exact ⟨[], by simp, rfl⟩
  | root => exact ⟨[[]], by simp, by simp [Anchor.text, List.intercalate_cons_cons]⟩
  | doubleRoot => exact ⟨[[], []], by simp, by simp [Anchor.text, List.intercalate_cons_cons]⟩

/-- What stands behind the slashes in front are the segments. -/
theorem segments_ofString_append (a : Anchor) (s : Segment) (ss : List Segment) :
    (ofString (a.text ++ "/".intercalate ((s :: ss).map Segment.text))).segments = s :: ss := by
  obtain ⟨lead, hlead, htext⟩ := exists_intercalate_anchor a s ss
  have hslash : ∀ cs ∈ lead ++ (s :: ss).map (fun s ↦ s.text.toList), '/' ∉ cs := by
    intro cs hcs
    rcases List.mem_append.mp hcs with hcs | hcs
    · simp [hlead cs hcs]
    · obtain ⟨s', -, rfl⟩ := List.mem_map.mp hcs
      exact s'.isValid.2.2
  have hnone : lead.filterMap (fun cs ↦ Segment.ofString? (.ofList cs)) = [] := by
    refine List.filterMap_eq_nil_iff.mpr fun cs hcs ↦ ?_
    rw [hlead cs hcs]
    decide
  rw [segments_ofString ((toList_anchor_append ..).trans htext) (by simp) hslash,
    List.filterMap_append, hnone, filterMap_segments, List.nil_append]

/-- A path can be read back from its text. -/
@[simp] theorem ofString_toString (p : Path) : ofString (toString p) = p := by
  obtain ⟨anchor, ss⟩ := p
  change ofString (Path.toString _) = _
  unfold Path.toString
  split
  · next h =>
    obtain ⟨rfl, rfl⟩ : anchor = .here ∧ ss = [] := h
    decide
  · next h =>
    cases ss with
    | nil => cases anchor <;> simp_all <;> decide
    | cons s ss =>
      have hanchor := anchor_ofString_append anchor (s :: ss)
      have hsegments := segments_ofString_append anchor s ss
      cases hp : ofString (anchor.text ++ "/".intercalate ((s :: ss).map Segment.text)) with
      | mk anchor' ss' => simp_all

/-- Different paths have different texts. -/
theorem toString_inj {p q : Path} : toString p = toString q ↔ p = q := by
  refine ⟨fun h ↦ ?_, fun h ↦ h ▸ rfl⟩
  rw [← ofString_toString p, h, ofString_toString]

/-- What stands before the last segment in the text of a path does not hang on that segment. It is nothing, or ends in a
slash. -/
theorem exists_toString_concat (a : Anchor) (ss : List Segment) :
    ∃ front : String, (∀ c ∈ front.toList.getLast?, c = '/') ∧
      ∀ s, toString (⟨a, ss ++ [s]⟩ : Path) = front ++ s.text := by
  have hjoin (xs : List (List Char)) : ∃ front : List Char, (∀ c ∈ front.getLast?, c = '/') ∧
      ∀ cs, ['/'].intercalate (xs ++ [cs]) = front ++ cs := by
    induction xs with
    | nil => exact ⟨[], by simp, fun cs ↦ by simp⟩
    | cons x xs ih =>
      obtain ⟨front, hlast, hfront⟩ := ih
      refine ⟨x ++ '/' :: front, ?_, fun cs ↦ ?_⟩
      · cases h : front.getLast? with
        | none => simp [h, List.getLast?_cons]
        | some c => simpa [h, List.getLast?_cons] using hlast c h
      · rw [List.cons_append, List.append_assoc, List.cons_append, ← hfront]
        cases xs with
        | nil => simp [List.intercalate_cons_cons]
        | cons x' xs => simp [List.intercalate_cons_cons]
  obtain ⟨front, hlast, hfront⟩ := hjoin (ss.map fun s ↦ s.text.toList)
  refine ⟨a.text ++ .ofList front, ?_, fun s ↦ String.toList_inj.mp ?_⟩
  · rw [String.toList_append, String.toList_ofList, List.getLast?_append]
    cases h : front.getLast? with
    | none => cases a <;> simp [Anchor.text]
    | some c => simpa using hlast c h
  · change (Path.toString _).toList = _
    rw [Path.toString, if_neg (by simp), toList_anchor_append, List.map_append, List.map_singleton, hfront]
    simp

end ModuleBuild.Path
