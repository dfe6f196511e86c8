import ModuleBuild.Module.Descriptor
import ModuleBuild.Proofs.FileTree.Lookup
import ModuleBuild.Proofs.FileTree.Shape
import ModuleBuild.Proofs.Ini.Insertion
import Mathlib.Logic.Relation

/-!
# What a descriptor may say beside

A descriptor is padded by comments, which may stand wherever a line starts, and behind its end by sections that describe
no module (`Padded`). However much is put in, one thing after another, the descriptor is loaded as the same module
(`load_padded`).
-/

namespace ModuleBuild.Module

open Text (IsLineStart ended)
open Ini

variable {cs cs' : List Char} {path : Path} {m : Module}

/-- A section that can stand behind the text, and that is none of those that are looked at. -/
structure IsForeign (cs : List Char) (name : String) (es : List Ini.Entry) : Prop where
  ne_empty : name ≠ ""
  isOneLine : ∀ c ∈ name.toList, c ≠ '\n' ∧ c ≠ '\r'
  notMem : name ∉ ["module", "project", defaultSection]
  /-- No section of the text has that name. -/
  isNew : ∀ d, Document.ofText cs = .ok d → d.hasSection name = false
  isReadable : ∀ e ∈ es, e.IsReadable ∧ '\r' ∉ e.value
  /-- No two options have one name, in whatever case it is written. -/
  nodup : (es.map Ini.Entry.option).Nodup

/-- A text, and the text with something put in that no module is described by. -/
inductive Padded : List Char → List Char → Prop where
  /-- The last line is ended. -/
  | ended (cs : List Char) : Padded cs (ended cs)
  /-- A comment is put in where a line starts. Only at the very end may it lack a line end of its own. -/
  | comment {front back ending : List Char} (hfront : IsLineStart front back) (c : Comment) (hending : IsLineEnd ending)
      (hback : back = [] ∨ IsLineStart (front ++ (c.text ++ ending)) back) :
      Padded (front ++ back) (front ++ (c.text ++ ending) ++ back)
  /-- A section is put behind the last line. -/
  | foreign {cs : List Char} (hcs : IsLineStart cs []) {name : String} {es : List Ini.Entry}
      (h : IsForeign cs name es) {ending : List Char} (hending : IsLineEnd ending) :
      Padded cs (cs ++ (sectionText name es ++ ending))

/-- The bytes of a text describe the module of the document that the text makes. -/
theorem ofBytes_eq_ok_iff {s : String} :
    ofBytes path s.toUTF8 = .ok m ↔ ∃ d, Document.ofText s.toList = .ok d ∧ ofDocument path d = m := by
  have hlines : Text.Utf8.readLines s.toUTF8 = (Text.lines (Text.normalizeNewlines s.toList), none) := by
    rw [Text.Utf8.readLines, Text.Utf8.decode_toUTF8]
  rw [ofBytes, hlines, Document.ofText, Document.ofLines]
  cases hread : State.readAll {} 1 (Text.lines (Text.normalizeNewlines s.toList)) with
  | error fault => simp [hread]
  | ok st => cases hfinish : st.finish <;> simp [hread, hfinish]

/-- What is put in changes the document in no way that a module tells. -/
theorem Padded.ofText_eq_ok (h : Padded cs cs') (path : Path) {d : Document} (hd : Document.ofText cs = .ok d) :
    ∃ d', Document.ofText cs' = .ok d' ∧ ofDocument path d' = ofDocument path d := by
  cases h with
  | ended => exact ⟨d, (Document.ofText_ended cs).mpr hd, rfl⟩
  | comment hfront c hending hback => exact ⟨d, Document.ofText_comment hd hfront c hending hback, rfl⟩
  | @foreign cs hcs name es h ending hending =>
    obtain ⟨hmodule, hproject, hdefault⟩ : name ≠ "module" ∧ name ≠ "project" ∧ name ≠ defaultSection := by
      simpa using h.notMem
    refine ⟨_, Document.ofText_section hd hcs h.ne_empty hdefault h.isOneLine (h.isNew d hd) h.isReadable h.nodup
      hending, ?_⟩
    have hvalue {name' : String} (hne : name' ≠ name) :
        (d.setOptions name (optionsOf es)).value? name' = d.value? name' :=
      funext fun _ ↦ Document.value?_setOptions_of_ne _ hdefault hne
    simp only [ofDocument, hvalue hmodule.symm, hvalue hproject.symm,
      Document.hasSection_setOptions_of_ne _ hdefault hproject.symm]

/-- However much is put in, no module tells. -/
theorem Padded.exists_ofText_eq_ok (h : Relation.ReflTransGen Padded cs cs') {d : Document}
    (hd : Document.ofText cs = .ok d) :
    ∃ d', Document.ofText cs' = .ok d' ∧ ofDocument path d' = ofDocument path d := by
  induction h with
  | refl => exact ⟨d, hd, rfl⟩
  | tail _ hstep ih =>
    obtain ⟨d₁, hd₁, heq₁⟩ := ih
    obtain ⟨d₂, hd₂, heq₂⟩ := hstep.ofText_eq_ok path hd₁
    exact ⟨d₂, hd₂, heq₂.trans heq₁⟩

/-- A descriptor that is loaded is loaded as the same module when comments and sections of no meaning are put into
it. -/
theorem load_padded {s s' : String} {t t' : FileTree} {project project' : Path} {modified modified' : Timestamp}
    (hfile : t.stat (project / path) = .ok (.file s.toUTF8 modified)) (hm : load t project path = .ok m)
    (h : Relation.ReflTransGen Padded s.toList s'.toList)
    (hfile' : t'.stat (project' / path) = .ok (.file s'.toUTF8 modified')) : load t' project' path = .ok m := by
  have hload {t : FileTree} {project : Path} {s : String} {modified : Timestamp}
      (hfile : t.stat (project / path) = .ok (.file s.toUTF8 modified)) :
      load t project path = (ofBytes path s.toUTF8).mapError .load := by
    have hisFile := FileTree.isFile_eq_true.mpr ⟨_, _, hfile⟩
    have hread := FileTree.read_eq_ok.mpr ⟨_, hfile⟩
    simp only [load, hisFile, hread, mapError_ok, ok_bind, if_true]
  rw [hload hfile, mapError_eq_ok] at hm
  obtain ⟨d, hd, rfl⟩ := ofBytes_eq_ok_iff.mp hm
  rw [hload hfile', mapError_eq_ok]
  exact ofBytes_eq_ok_iff.mpr (Padded.exists_ofText_eq_ok h hd)

/-- A module with two sources. -/
def twoSources : Module where
  path := defaultFile
  directory := directoryOf defaultFile
  target := some "app"
  sources := ["a.c", "b.c"]

/-- Its descriptor, the sources in two lines. -/
def folded : String := "[module]\nsources = a.c\n\tb.c\ntarget = app"

/-- A comment that looks like a source. -/
def remark : Comment where
  indentation := [' ', '\t']
  mark := '#'
  body := "c.c = ;".toList
  isBlank_indentation := List.forall_iff_forall_mem.mp (by decide)
  isCommentMark_mark := rfl
  ne_of_mem_body := List.forall_iff_forall_mem.mp (by decide)

/-- The descriptor with the comment between the sources. -/
def commented : String := "[module]\nsources = a.c\n \t#c.c = ;\r\n\tb.c\ntarget = app"

/-- Options of a section that is not looked at. -/
def unseen : List Ini.Entry := [⟨"sources", "d.c".toList⟩, ⟨"Target_2", "# [module]".toList⟩]

/-- The descriptor with the comment, and the section behind it. -/
def commentedBeside : String := commented ++ "\n[Module]\nsources = d.c\nTarget_2 = # [module]\r"

/-- A directory with one descriptor. -/
def descriptorTree (s : String) : FileTree := .ofFiles (.ofSeconds 100) [("module.ini", s, .ofSeconds 50)]

/-- A comment in a value, its line end, and a section, one after another. -/
theorem load_padded_commentedBeside :
    Relation.ReflTransGen Padded folded.toList commentedBeside.toList ∧
      load (descriptorTree folded) .here defaultFile = .ok twoSources ∧
      load (descriptorTree commentedBeside) .here defaultFile = .ok twoSources := by
  have hsources : IsLineStart "[module]\nsources = a.c\n".toList "\tb.c\ntarget = app".toList :=
    .inr (.inl (by decide +kernel))
  have hremark : IsLineStart ("[module]\nsources = a.c\n".toList ++ (remark.text ++ ['\r', '\n']))
      "\tb.c\ntarget = app".toList := .inr (.inl (by decide +kernel))
  have hreturn : IsLineEnd ['\r'] := by simp [IsLineEnd]
  have hboth : IsLineEnd ['\r', '\n'] := by simp [IsLineEnd]
  have hcomment := Padded.comment hsources remark hboth (.inr hremark)
  have hforeign : IsForeign (ended commented.toList) "Module" unseen := by
    refine ⟨by decide, List.forall_iff_forall_mem.mp (by decide), by decide, fun d hd ↦ ?_, fun e he ↦ ?_, ?_⟩
    · have hnone : ((Document.ofText (ended commented.toList)).toOption.map (·.hasSection "Module")) = some false := by
        decide +kernel
      rw [hd] at hnone
      simpa [Except.toOption] using hnone
    · have hwords : ∀ e ∈ unseen,
          e.key ≠ "" ∧ (∀ c ∈ e.key.toList, c.isAlphanum ∨ c = '_') ∧ '\n' ∉ e.value ∧ '\r' ∉ e.value := by
        simp [unseen]
      obtain ⟨hne, hkey, hfeed, hreturn⟩ := hwords e he
      exact ⟨Entry.isReadable_of_word hne hkey hfeed, hreturn⟩
    · decide +kernel
  have hsection := Padded.foreign (Text.isLineStart_ended _) hforeign hreturn
  have hpadded : Relation.ReflTransGen Padded folded.toList commentedBeside.toList := by
    have hfolded : folded.toList = "[module]\nsources = a.c\n".toList ++ "\tb.c\ntarget = app".toList := by
      decide +kernel
    have hcommented : "[module]\nsources = a.c\n".toList ++ (remark.text ++ ['\r', '\n']) ++
        "\tb.c\ntarget = app".toList = commented.toList := by decide +kernel
    have hbeside : commentedBeside.toList = ended commented.toList ++ (sectionText "Module" unseen ++ ['\r']) := by
      decide +kernel
    rw [hcommented] at hcomment
    rw [hfolded, hbeside]
    exact ((Relation.ReflTransGen.single hcomment).tail (.ended _)).tail hsection
  have hfile : ((descriptorTree folded).stat (.here / defaultFile)).toOption =
      some (.file folded.toUTF8 (.ofSeconds 50)) := by decide +kernel
  have hfile' : ((descriptorTree commentedBeside).stat (.here / defaultFile)).toOption =
      some (.file commentedBeside.toUTF8 (.ofSeconds 50)) := by decide +kernel
  have hm : (load (descriptorTree folded) .here defaultFile).toOption = some twoSources := by decide +kernel
  have hload := toOption_eq_some.mp hm
  exact ⟨hpadded, hload, load_padded (toOption_eq_some.mp hfile) hload hpadded (toOption_eq_some.mp hfile')⟩

end ModuleBuild.Module
