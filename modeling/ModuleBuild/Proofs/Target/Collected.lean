import ModuleBuild.Proofs.Path.Text
import ModuleBuild.Proofs.Table
import ModuleBuild.Target.Basic

/-!
# What a target collects

A target to which objects, prerequisites and libraries have been attached has the first occurrences of all of them
(`Target.collected`, `Target.holds_collected`), and attaching more adds at the end of its lists
(`Target.extends_collected`).

Whether an executable looks for libraries is decided by the names of its prerequisites, and these are of one kind with
the paths that they stand for (`TargetKind.ofPath_join`): a path is an archive's if its last segment says so.
-/

namespace ModuleBuild

namespace TargetKind

/-- A path is that of an archive if its last segment says so. -/
theorem ofPath_concat (a : Anchor) (ss : List Segment) (s : Segment) :
    ofPath ⟨a, ss ++ [s]⟩ = .archive ↔ ['.', 'a'] <:+ s.text.toList := by
  obtain ⟨front, hlast, htext⟩ := Path.exists_toString_concat a ss
  have harchive : ofPath ⟨a, ss ++ [s]⟩ = .archive ↔ ['.', 'a'] <:+ front.toList ++ s.text.toList := by
    rw [ofPath, htext, String.toList_append]
    simp
  rw [harchive]
  refine ⟨fun h ↦ ?_, fun h ↦ h.trans (List.suffix_append _ _)⟩
  rcases List.suffix_or_suffix_of_suffix h (List.suffix_append front.toList s.text.toList) with hsuffix | hsuffix
  · exact hsuffix
  · rcases List.suffix_cons_iff.mp hsuffix with heq | hshort
    · exact heq ▸ List.suffix_refl _
    · -- such a segment leaves the dot to what stands before it, but this ends in a slash
      rcases List.suffix_cons_iff.mp hshort with heq | hnil
      · rw [heq] at h
        obtain ⟨rest, hrest⟩ := h
        have hfront : rest ++ ['.'] = front.toList := (List.append_inj' (by simpa using hrest) rfl).1
        exact absurd (hlast '.' (by simp [← hfront])) (by decide)
      · exact absurd (List.suffix_nil.mp hnil) (by simpa using s.isValid.1)

theorem eq_of_archive_iff {k k' : TargetKind} (h : k = .archive ↔ k' = .archive) : k = k' := by
  cases k with
  | archive => exact (h.mp rfl).symm
  | executable =>
    cases k' with
    | archive => exact h.mpr rfl
    | executable => rfl

/-- A name is of one kind with the path that it stands for in a directory. -/
theorem ofPath_join (directory : Path) {p : Path} (h : p ≠ .here) : ofPath (directory / p) = ofPath p := by
  cases hp : p.isAbsolute with
  | true => rw [Path.join_of_isAbsolute hp]
  | false =>
    obtain ⟨a, ss⟩ := p
    have ha : a = .here := by simpa [Path.isAbsolute] using hp
    rcases List.eq_nil_or_concat ss with rfl | ⟨ss, s, rfl⟩
    · exact absurd (congrArg (Path.mk · []) ha) h
    · rw [Path.join_of_not_isAbsolute hp, List.concat_eq_append, ← List.append_assoc]
      exact eq_of_archive_iff (by rw [ofPath_concat, ofPath_concat])

end TargetKind

namespace Target

/-- The target with objects attached. -/
def withObjects (t : Target) (objects : List Path) : Target :=
  { t with objects := appendNew t.objects objects }

/-- The target with libraries attached, unless it is an archive. -/
def withLibs (t : Target) (libs : List String) : Target :=
  { t with libs := if t.kind = .archive then t.libs else appendNew t.libs libs }

/-- The target with prerequisites attached, and the flag that archives among them call for. -/
def withPrereqs (t : Target) (directory : Path) (names : List String) : Target :=
  { t with
    prereqs := appendNew t.prereqs (names.map fun name ↦ directory / Path.ofString name)
    ldflags :=
      if t.kind ≠ .archive ∧ ∃ name ∈ names, TargetKind.ofPath (.ofString name) = .archive then
        appendNew t.ldflags ["-L" ++ toString directory] else t.ldflags }

/-- The target at a path to which all this has been attached. -/
def collected (directory p : Path) (objects : List Path) (names libs : List String) : Target where
  path := p
  objects := objects.eraseDups
  prereqs := (names.map fun name ↦ directory / Path.ofString name).eraseDups
  libs := match TargetKind.ofPath p with
    | .archive => []
    | .executable => libs.eraseDups
  ldflags := match TargetKind.ofPath p with
    | .archive => []
    | .executable =>
      if ∃ name ∈ names, TargetKind.ofPath (.ofString name) = .archive then ["-L" ++ toString directory] else []

/-- A target to which nothing has been attached is empty. -/
theorem collected_nil (directory p : Path) : collected directory p [] [] [] = { path := p } := by
  cases h : TargetKind.ofPath p <;> simp [collected, h]

section Collected

variable (directory p : Path) (objects : List Path) (names libs : List String)

theorem withObjects_collected (objects' : List Path) :
    (collected directory p objects names libs).withObjects objects' =
      collected directory p (objects ++ objects') names libs := by
  simp only [withObjects, collected, appendNew_eraseDups]

theorem withLibs_collected (libs' : List String) :
    (collected directory p objects names libs).withLibs libs' =
      collected directory p objects names (libs ++ libs') := by
  cases h : TargetKind.ofPath p <;> simp [withLibs, collected, kind, h, appendNew_eraseDups]

theorem withPrereqs_collected (names' : List String) :
    (collected directory p objects names libs).withPrereqs directory names' =
      collected directory p objects (names ++ names') libs := by
  have hprereqs : appendNew (names.map fun name ↦ directory / Path.ofString name).eraseDups
      (names'.map fun name ↦ directory / Path.ofString name) =
        ((names ++ names').map fun name ↦ directory / Path.ofString name).eraseDups := by
    rw [appendNew_eraseDups, List.map_append]
  cases h : TargetKind.ofPath p with
  | archive => simp [withPrereqs, collected, kind, h, hprereqs]
  | executable =>
    simp only [withPrereqs, collected, kind, h, hprereqs, List.mem_append, or_and_right, exists_or]
    by_cases hnew : ∃ name ∈ names', TargetKind.ofPath (.ofString name) = .archive
    · by_cases hold : ∃ name ∈ names, TargetKind.ofPath (.ofString name) = .archive
      · simp [hold, hnew, appendNew]
      · simp [hold, hnew, appendNew]
    · simp [hnew]

end Collected

/-- The second target is the first one, with more at the end of its lists. -/
structure Extends (t t' : Target) : Prop where
  path : t'.path = t.path
  objects : t.objects <+: t'.objects
  prereqs : t.prereqs <+: t'.prereqs
  libs : t.libs <+: t'.libs
  ldflags : t.ldflags <+: t'.ldflags

/-- The target has the first occurrences of what was attached to it. -/
structure Holds (t : Target) (directory : Path) (objects : List Path) (names libs : List String) : Prop where
  nodup_objects : t.objects.Nodup
  nodup_prereqs : t.prereqs.Nodup
  nodup_libs : t.libs.Nodup
  nodup_ldflags : t.ldflags.Nodup
  objects : t.objects = objects.eraseDups
  prereqs : t.prereqs = (names.map fun name ↦ directory / Path.ofString name).eraseDups
  archive : t.isArchive → t.libs = [] ∧ t.ldflags = []
  libs : ¬ t.isArchive → t.libs = libs.eraseDups
  ldflags : ¬ t.isArchive → t.ldflags =
    if ∃ name ∈ names, Path.ofString name ≠ .here ∧ TargetKind.ofPath (directory / Path.ofString name) = .archive
    then ["-L" ++ toString directory] else []
  /-- The directory of targets itself has a name that does not tell its kind. -/
  ldflags_prereqs : ¬ t.isArchive → (∀ name ∈ names, Path.ofString name ≠ .here) → t.ldflags =
    if ∃ q ∈ t.prereqs, TargetKind.ofPath q = .archive then ["-L" ++ toString directory] else []

/-- What is attached comes behind what was attached before. -/
theorem extends_collected (directory p : Path) (objects objects' : List Path) (names names' libs libs' : List String) :
    (collected directory p objects names libs).Extends
      (collected directory p (objects ++ objects') (names ++ names') (libs ++ libs')) where
  path := rfl
  objects := eraseDups_prefix objects objects'
  prereqs := by
    simp only [collected, List.map_append]
    exact eraseDups_prefix _ _
  libs := by
    cases h : TargetKind.ofPath p with
    | archive => simp [collected, h]
    | executable =>
      simp only [collected, h]
      exact eraseDups_prefix libs libs'
  ldflags := by
    cases h : TargetKind.ofPath p with
    | archive => simp [collected, h]
    | executable =>
      -- the flag is there or not, and once there it stays
      simp only [collected, h, List.mem_append, or_and_right, exists_or]
      by_cases hold : ∃ name ∈ names, TargetKind.ofPath (.ofString name) = .archive
      · simp only [hold, true_or, if_true, List.prefix_refl]
      · rw [if_neg hold]
        exact List.nil_prefix

/-- A name other than that of the directory itself is an archive's exactly if the path is that it stands for. -/
theorem archive_name_iff (directory : Path) (name : String) :
    TargetKind.ofPath (.ofString name) = .archive ↔
      Path.ofString name ≠ .here ∧ TargetKind.ofPath (directory / Path.ofString name) = .archive := by
  by_cases h : Path.ofString name = .here
  · simp only [h, ne_eq, not_true_eq_false, false_and, iff_false]
    decide
  · rw [TargetKind.ofPath_join directory h]
    simp [h]

/-- A target has the first occurrences of what was attached to it. -/
theorem holds_collected (directory p : Path) (objects : List Path) (names libs : List String) :
    (collected directory p objects names libs).Holds directory objects names libs := by
  have harchive : (collected directory p objects names libs).isArchive ↔ TargetKind.ofPath p = .archive :=
    decide_eq_true_iff
  have hlibs (h : TargetKind.ofPath p ≠ .archive) :
      (collected directory p objects names libs).libs = libs.eraseDups := by
    cases hp : TargetKind.ofPath p with
    | archive => exact absurd hp h
    | executable => simp [collected, hp]
  have hldflags (h : TargetKind.ofPath p ≠ .archive) : (collected directory p objects names libs).ldflags =
      if ∃ name ∈ names, Path.ofString name ≠ .here ∧ TargetKind.ofPath (directory / Path.ofString name) = .archive
      then ["-L" ++ toString directory] else [] := by
    cases hp : TargetKind.ofPath p with
    | archive => exact absurd hp h
    | executable => simp only [collected, hp, archive_name_iff directory]
  exact {
    nodup_objects := nodup_eraseDups _
    nodup_prereqs := nodup_eraseDups _
    nodup_libs := by cases h : TargetKind.ofPath p <;> simp [collected, h, nodup_eraseDups]
    nodup_ldflags := by
      cases h : TargetKind.ofPath p with
      | archive => simp [collected, h]
      | executable =>
        simp only [collected, h]
        split <;> simp
    objects := rfl
    prereqs := rfl
    archive := fun h ↦ by simp [collected, harchive.mp h]
    libs := fun h ↦ hlibs (mt harchive.mpr h)
    ldflags := fun h ↦ hldflags (mt harchive.mpr h)
    ldflags_prereqs := fun h hnames ↦ by
      have hprereqs : (∃ q ∈ (collected directory p objects names libs).prereqs, TargetKind.ofPath q = .archive) ↔
          ∃ name ∈ names,
            Path.ofString name ≠ .here ∧ TargetKind.ofPath (directory / Path.ofString name) = .archive := by
        simp only [collected, List.mem_eraseDups, List.mem_map, exists_exists_and_eq_and]
        exact exists_congr fun name ↦ and_congr_right fun hname ↦ (and_iff_right (hnames name hname)).symm
      rw [hldflags (mt harchive.mpr h), if_congr hprereqs rfl rfl] }

end Target

end ModuleBuild
