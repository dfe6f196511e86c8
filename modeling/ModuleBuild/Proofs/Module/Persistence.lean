import ModuleBuild.Proofs.FileTree.Evolution
import ModuleBuild.Proofs.Module.Unfolding

/-!
# Module trees that stay

A file tree may change without its descriptors being touched. Then every reference leads where it led: a descriptor
is still the same file, a directory is still a directory, and so the module tree unfolds as it did
(`Unfolds.persists`).
-/

namespace ModuleBuild.Module

variable {t t' : FileTree} {written made : Set Location} {project path : Path}
  {m child : Module} {above : List Module} {reference : String}

/-- A descriptor that stays is loaded as it was. -/
theorem load_persists (h : load t project path = .ok m)
    (hstat : ∀ e, t.stat (project / path) = .ok e → t'.stat (project / path) = .ok e) :
    load t' project path = .ok m := by
  unfold load at h ⊢
  simp only [bind_eq_ok, mapError_eq_ok] at h ⊢
  obtain ⟨b, hb, h⟩ := h
  cases b with
  | false => simp at h
  | true =>
    obtain ⟨bytes, modified, hfile⟩ := FileTree.isFile_eq_true.mp hb
    refine ⟨true, FileTree.isFile_eq_true.mpr ⟨bytes, modified, hstat _ hfile⟩, ?_⟩
    simp only [if_true, bind_eq_ok, mapError_eq_ok] at h ⊢
    obtain ⟨bytes', hread, hm⟩ := h
    obtain ⟨modified', hfile'⟩ := FileTree.read_eq_ok.mp hread
    exact ⟨bytes', FileTree.read_eq_ok.mpr ⟨modified', hstat _ hfile'⟩, hm⟩

/-- A reference leads to the descriptor to which it led. -/
theorem submodulePath_persists (hev : t.Touches t' written made) {directory : Path}
    (h : submodulePath t project directory reference = .ok path)
    (hfile : ∃ bytes modified, t.stat (project / path) = .ok (.file bytes modified))
    (hpath : t.place (project / path) ∉ written) :
    submodulePath t' project directory reference = .ok path := by
  unfold submodulePath at h ⊢
  obtain ⟨b, hb, h⟩ := bind_eq_ok.mp h
  refine bind_eq_ok.mpr ⟨b, ?_, h⟩
  cases b with
  | true =>
    obtain ⟨modified, hdir⟩ := FileTree.isDirectory_eq_true.mp hb
    exact FileTree.isDirectory_eq_true.mpr ⟨modified, hev.stat_eq_directory hdir⟩
  | false =>
    -- the reference names the descriptor itself, which is a file still
    simp only [Bool.false_eq_true, if_false, pure_eq_ok, Except.ok.injEq] at h
    obtain ⟨bytes, modified, hfile⟩ := hfile
    rw [h]
    simp [FileTree.isDirectory, FileTree.probe, hev.stat_eq_ok hpath hfile, Except.map, Entry.isFile]

/-- A reference leads to the module to which it led. -/
theorem refer_persists (hev : t.Touches t' written made)
    (h : refer t project m above reference = .ok child)
    (hchild : t.place (project / child.path) ∉ written) :
    refer t' project m above reference = .ok child := by
  unfold refer at h ⊢
  obtain ⟨path, hpath, h⟩ := bind_eq_ok.mp h
  rw [mapError_eq_ok] at hpath
  dsimp only at h
  split at h
  · simp at h
  · next hnew =>
    rw [mapError_eq_ok] at h
    obtain ⟨rfl, hfile⟩ := path_of_load h
    have hload := load_persists h fun _ he ↦ hev.stat_eq_ok hchild he
    refine bind_eq_ok.mpr ⟨child.path, mapError_eq_ok.mpr ?_, ?_⟩
    · exact submodulePath_persists hev hpath hfile hchild
    · rw [if_neg hnew]
      exact mapError_eq_ok.mpr hload

/-- The module tree unfolds as it did. -/
theorem Unfolds.persists {rs : List String} {os : List Occurrence} {ending : Option Failure}
    (h : Unfolds t project m above rs os ending) (hending : ending = none)
    (hev : t.Touches t' written made)
    (hos : ∀ o ∈ os, t.place (project / o.module.path) ∉ written) :
    Unfolds t' project m above rs os ending := by
  induction h with
  | done => exact .done
  | broken _ => simp at hending
  | cut _ _ _ => simp at hending
  | next hr _ _ ih ihrest =>
    have hchild := hos _ List.mem_cons_self
    refine .next (refer_persists hev hr hchild) (ih rfl fun o ho ↦ hos o ?_)
      (ihrest hending fun o ho ↦ hos o ?_)
    · exact List.mem_append_left _ (List.mem_cons_of_mem _ ho)
    · exact List.mem_append_right _ ho

end ModuleBuild.Module
