import ModuleBuild.Proofs.Listing.Phony
import ModuleBuild.Proofs.Table
import Mathlib.Data.List.Nodup

/-!
# Files that are listed under two names

What the rules of a text name is told apart by the names, not by the paths that these spell. So a file is read twice
from a text if two names spell its path, and the target of a rule is read if another name spells its path. Where every
path has one name in the text the files that are read are the paths that the rules name, each once, without the targets
(`prerequisites_distinct`).
-/

namespace ModuleBuild

namespace Listing

/-- The path that a name spells. -/
def pathOf (name : List Char) : Path := .ofString (.ofList name)

/-- The lines of a text: continued lines are joined, and comments dropped. -/
def ruleLines (text : String) : List (List Char) :=
  (Text.splitLines (joinContinued text.toList)).map dropComment

/-- A rule has the path as its target: a line that has something behind its first colon names it in front. -/
def IsTarget (text : String) (p : Path) : Prop :=
  ∃ head tail, head ++ ':' :: tail ∈ ruleLines text ∧ ':' ∉ head ∧ Text.trim tail ≠ [] ∧ p ∈ (names head).map pathOf

/-- The names of targets in a text. -/
def targetNames (text : String) : List (List Char) := (rules text).flatMap Prod.fst

/-- The names of files in a text: what stands behind a colon, and in front of one that nothing follows. -/
def fileNames (text : String) : List (List Char) := (rules text).flatMap Prod.snd

/-- The names of files that are no names of targets, each once and in the order in which they come first. -/
def keptNames (text : String) : List (List Char) :=
  (appendNew [] (fileNames text)).filter fun n ↦ !(targetNames text).contains n

/-- Where a file's name is not that of a target, no other name in the text spells its path. -/
def SpelledOnce (text : String) : Prop :=
  ∀ n ∈ fileNames text, n ∉ targetNames text → ∀ n' ∈ fileNames text ++ targetNames text, pathOf n' = pathOf n → n' = n

variable {text : String} {p : Path}

theorem keptNames_eq (text : String) :
    keptNames text = (appendNew [] (fileNames text)).filter (· ∉ targetNames text) := by
  simp [keptNames, decide_not]

theorem prerequisites_eq_map (text : String) : prerequisites text = (keptNames text).map pathOf := by
  rw [keptNames_eq]
  rfl

theorem mem_keptNames {n : List Char} : n ∈ keptNames text ↔ n ∈ fileNames text ∧ n ∉ targetNames text := by
  simp [keptNames]

theorem nodup_keptNames (text : String) : (keptNames text).Nodup :=
  (nodup_appendNew List.nodup_nil _).filter _

theorem rules_eq (text : String) : rules text = (ruleLines text).map sides := by
  simp [rules, ruleLines, Function.comp_def]

/-- A line without a colon is no rule. -/
theorem sides_of_notMem {line : List Char} (h : ':' ∉ line) : sides line = ([], []) := by
  have hdrop : line.dropWhile (· != ':') = [] :=
    List.dropWhile_eq_nil_iff.mpr fun c hc ↦ by simpa using fun heq : c = ':' ↦ h (heq ▸ hc)
  rw [sides, hdrop]

/-- The targets of the rules are the paths that the names of targets spell. -/
theorem isTarget_iff : IsTarget text p ↔ p ∈ (targetNames text).map pathOf := by
  rw [targetNames, rules_eq, List.flatMap_map, List.map_flatMap, List.mem_flatMap]
  constructor
  · rintro ⟨head, tail, hline, hcolon, htail, hp⟩
    refine ⟨_, hline, ?_⟩
    rwa [sides_append hcolon, if_neg (by simpa using htail)]
  · rintro ⟨line, hline, hp⟩
    by_cases hcolon : ':' ∈ line
    · obtain ⟨head, tail, rfl, hhead⟩ := List.eq_append_cons_of_mem hcolon
      rw [sides_append hhead] at hp
      split at hp
      · simp at hp
      · next htail => exact ⟨head, tail, hline, hhead, by simpa using htail, hp⟩
    · rw [sides_of_notMem hcolon] at hp
      simp at hp

instance (text : String) (p : Path) : Decidable (IsTarget text p) := decidable_of_iff _ isTarget_iff.symm

/-- Two files have one path only if two names spell it. -/
theorem nodup_prerequisites_iff : (prerequisites text).Nodup ↔
    ∀ n ∈ keptNames text, ∀ n' ∈ keptNames text, pathOf n' = pathOf n → n' = n := by
  rw [prerequisites_eq_map, List.nodup_map_iff_inj_on (nodup_keptNames text)]
  exact ⟨fun h n hn n' hn' ↦ h n' hn' n hn, fun h n hn n' hn' ↦ h n' hn' n hn⟩

/-- A file is a target only if a name that is none of a target spells its path. -/
theorem not_isTarget_iff : (∀ p ∈ prerequisites text, ¬IsTarget text p) ↔
    ∀ n ∈ keptNames text, ∀ n' ∈ targetNames text, pathOf n' ≠ pathOf n := by
  rw [prerequisites_eq_map, List.forall_mem_map]
  refine forall₂_congr fun n _ ↦ ?_
  rw [isTarget_iff, List.mem_map]
  push Not
  rfl

/-- Files that are told apart by their paths are read as the paths that the rules name, each once and in order, without
the targets. -/
theorem prerequisites_of_spelledOnce (h : SpelledOnce text) :
    prerequisites text = ((fileNames text).map pathOf).eraseDups.filter (¬IsTarget text ·) := by
  have hmem {n : List Char} (hn : n ∈ fileNames text) :
      pathOf n ∈ (targetNames text).map pathOf ↔ n ∈ targetNames text := by
    refine ⟨fun hpath ↦ ?_, List.mem_map_of_mem⟩
    obtain ⟨n', hn', hpath⟩ := List.mem_map.mp hpath
    by_contra htarget
    exact htarget (h n hn htarget n' (List.mem_append_right _ hn') hpath ▸ hn')
  have hfilter : ((fileNames text).map pathOf).filter (¬IsTarget text ·) =
      ((fileNames text).filter (· ∉ targetNames text)).map pathOf := by
    rw [List.filter_map]
    congr 1
    refine List.filter_congr fun n hn ↦ ?_
    rw [Function.comp_apply, decide_eq_decide, isTarget_iff, hmem hn]
  have hkept : keptNames text = appendNew [] ((fileNames text).filter (· ∉ targetNames text)) := by
    rw [keptNames_eq, ← appendNew_filter, List.filter_nil]
  have hpaths : ((fileNames text).map pathOf).eraseDups = appendNew [] ((fileNames text).map pathOf) := by
    rw [← List.nil_append ((fileNames text).map pathOf), ← appendNew_eraseDups, List.eraseDups_nil]
    rfl
  rw [prerequisites_eq_map, hkept, hpaths, ← appendNew_filter, hfilter, ← appendNew_map]
  · rfl
  · simp only [List.nil_append, List.mem_filter, decide_eq_true_eq]
    exact fun n hn n' hn' hpath ↦ h n' hn'.1 hn'.2 n (List.mem_append_left _ hn.1) hpath

/-- The files that are read from a text are all different, and none is the target of a rule, exactly if no path of them
has a second name in the text. Then they are the paths that the rules name as files, each once and in the order in which
they come first, without the targets. -/
theorem prerequisites_distinct (text : String) :
    ((prerequisites text).Nodup ∧ (∀ p ∈ prerequisites text, ¬IsTarget text p) ↔ SpelledOnce text) ∧
      (prerequisites text = ((fileNames text).map pathOf).eraseDups.filter (¬IsTarget text ·) ↔ SpelledOnce text) := by
  have hdistinct : (prerequisites text).Nodup ∧ (∀ p ∈ prerequisites text, ¬IsTarget text p) ↔ SpelledOnce text := by
    rw [nodup_prerequisites_iff, not_isTarget_iff]
    constructor
    · rintro ⟨hone, hnone⟩ n hn htarget n' hn' hpath
      have hkept := mem_keptNames.mpr ⟨hn, htarget⟩
      have htarget' : n' ∉ targetNames text := fun hmem ↦ hnone n hkept n' hmem hpath
      have hfile := (List.mem_append.mp hn').resolve_right htarget'
      exact hone n hkept n' (mem_keptNames.mpr ⟨hfile, htarget'⟩) hpath
    · intro h
      refine ⟨fun n hn n' hn' ↦ ?_, fun n hn n' hn' hpath ↦ ?_⟩
      · exact h n (mem_keptNames.mp hn).1 (mem_keptNames.mp hn).2 n' (List.mem_append_left _ (mem_keptNames.mp hn').1)
      · have hsame := h n (mem_keptNames.mp hn).1 (mem_keptNames.mp hn).2 n' (List.mem_append_right _ hn') hpath
        exact (mem_keptNames.mp hn).2 (hsame ▸ hn')
  refine ⟨hdistinct, fun heq ↦ hdistinct.mp ?_, prerequisites_of_spelledOnce⟩
  rw [heq]
  exact ⟨(nodup_eraseDups _).filter _, fun p hp ↦ by simpa using (List.mem_filter.mp hp).2⟩

/-- A header under two names is listed twice, and an object that its rule names as one of its files by another name is
no longer left out. -/
theorem prerequisites_respelled :
    prerequisites "build/a.o: a.c x.h ./x.h\n" = [.ofString "a.c", .ofString "x.h", .ofString "x.h"] ∧
      ¬(prerequisites "build/a.o: a.c x.h ./x.h\n").Nodup ∧
      prerequisites "build/a.o: a.c ./build/a.o\n" = [.ofString "a.c", .ofString "build/a.o"] ∧
      IsTarget "build/a.o: a.c ./build/a.o\n" (.ofString "build/a.o") := by
  decide +kernel

end Listing

end ModuleBuild
