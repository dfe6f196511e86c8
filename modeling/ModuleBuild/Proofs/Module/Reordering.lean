import ModuleBuild.Proofs.Module.Flags
import Mathlib.Data.List.Perm.Basic

/-!
# Modules whose references are reordered

Two trees may differ in the order in which some descriptors list their submodules. References then unfold to the same
occurrences in another order, if they unfold to the end in one of them: first in one tree, for references in another order
(`Module.Unfolds.perm`), then from tree to tree, since a module refers in another order to modules that do the same
(`Module.Unfolds.reordered`). Where an unfolding ends early the order decides how far it has come.
-/

namespace ModuleBuild

namespace Module

/-- The module without its references. -/
def withoutSubmodules (m : Module) : Module := { m with submodules := [] }

/-- The modules are the same, but for the order of their references. -/
structure Reordered (m m' : Module) : Prop where
  withoutSubmodules : m.withoutSubmodules = m'.withoutSubmodules
  submodules : m.submodules.Perm m'.submodules

namespace Reordered

variable {m m' : Module}

theorem refl (m : Module) : m.Reordered m := ⟨rfl, .refl _⟩

theorem symm (h : m.Reordered m') : m'.Reordered m := ⟨h.withoutSubmodules.symm, h.submodules.symm⟩

theorem path_eq (h : m.Reordered m') : m.path = m'.path := (congrArg Module.path h.withoutSubmodules :)

theorem directory_eq (h : m.Reordered m') : m.directory = m'.directory :=
  (congrArg Module.directory h.withoutSubmodules :)

theorem project_eq (h : m.Reordered m') : m.project = m'.project := (congrArg Module.project h.withoutSubmodules :)

end Reordered

/-- The bytes are the same, or describe the same module but for the order of its references. -/
def BytesReordered (bytes bytes' : ByteArray) : Prop :=
  bytes = bytes' ∨ ∃ m m', ofBytes .here bytes = .ok m ∧ ofBytes .here bytes' = .ok m' ∧ m.Reordered m'

theorem BytesReordered.symm {bytes bytes' : ByteArray} (h : BytesReordered bytes bytes') :
    BytesReordered bytes' bytes := by
  rcases h with h | ⟨m, m', hm, hm', hr⟩
  · exact .inl h.symm
  · exact .inr ⟨m', m, hm', hm, hr.symm⟩

/-- So they do wherever they stand. -/
theorem BytesReordered.ofBytes_eq_ok {bytes bytes' : ByteArray} (h : BytesReordered bytes bytes') {path : Path}
    {m : Module} (hm : ofBytes path bytes = .ok m) : ∃ m', ofBytes path bytes' = .ok m' ∧ m.Reordered m' := by
  rcases h with rfl | ⟨x, x', hx, hx', hr⟩
  · exact ⟨m, hm, .refl m⟩
  · rw [ofBytes_eq, hx] at hm
    obtain rfl := Except.ok.inj hm
    have hsame := congrArg (fun m : Module ↦ { m with path, directory := directoryOf path }) hr.withoutSubmodules
    rw [ofBytes_eq, hx']
    exact ⟨_, rfl, hsame, hr.submodules⟩

end Module

/-- A file stays a file, with references reordered, and a directory a directory. Times are left alone by none of this. -/
inductive Entry.Reordered : Entry → Entry → Prop where
  | directory (m m' : Timestamp) : Reordered (.directory m) (.directory m')
  | file {bytes bytes' : ByteArray} (h : Module.BytesReordered bytes bytes') (m m' : Timestamp) :
      Reordered (.file bytes m) (.file bytes' m')

namespace FileTree

/-- The trees hold the same, but for times and for the order of references in descriptors. -/
structure Reordered (t t' : FileTree) : Prop where
  current : t'.current = t.current
  entry : ∀ l, Option.Rel Entry.Reordered (t.entry? l) (t'.entry? l)

variable {t t' : FileTree} {p : Path}

namespace Reordered

theorem symm (h : t.Reordered t') : t'.Reordered t := by
  refine ⟨h.current.symm, fun l ↦ ?_⟩
  have he := h.entry l
  generalize t.entry? l = e at he ⊢
  generalize t'.entry? l = e' at he ⊢
  cases he with
  | none => exact .none
  | some he =>
    refine .some ?_
    cases he with
    | directory m m' => exact .directory m' m
    | file hbytes m m' => exact .file hbytes.symm m' m

theorem sameShape (h : t.Reordered t') : t.SameShape t' := by
  refine ⟨h.current, fun l ↦ ?_⟩
  have he := h.entry l
  generalize t.entry? l = e at he ⊢
  generalize t'.entry? l = e' at he ⊢
  cases he with
  | none => rfl
  | some he =>
    cases he with
    | directory m m' => rfl
    | file hbytes m m' => rfl

/-- What is read in one tree is read in the other, with references reordered. -/
theorem read_eq_ok (h : t.Reordered t') {bytes : ByteArray} (hread : t.read p = .ok bytes) :
    ∃ bytes', t'.read p = .ok bytes' ∧ Module.BytesReordered bytes bytes' := by
  obtain ⟨m, hstat⟩ := FileTree.read_eq_ok.mp hread
  obtain ⟨hlocate, hentry⟩ := FileTree.stat_eq_ok.mp hstat
  have he := h.entry (t.place p)
  rw [hentry] at he
  cases he' : t'.entry? (t.place p) with
  | none =>
    rw [he'] at he
    cases he
  | some e' =>
    rw [he'] at he
    cases he with
    | some he =>
      cases he with
      | file hbytes _ m' =>
        refine ⟨_, FileTree.read_eq_ok.mpr ⟨m', ?_⟩, hbytes⟩
        rw [FileTree.stat, h.sameShape.locate_eq, hlocate, ok_bind, he']

end Reordered

/-- Trees hold the same but for the order of references if one descriptor is edited so. -/
theorem reordered_of_edited {l : Location} {bytes bytes' : ByteArray} (h : t.EditedAt t' l bytes bytes')
    (hbytes : Module.BytesReordered bytes bytes') : t.Reordered t' := by
  refine ⟨h.current, fun l' ↦ ?_⟩
  by_cases hl : l' = l
  · obtain ⟨m, hfile⟩ := h.file
    obtain ⟨m', hedited⟩ := h.edited
    rw [hl, hfile, hedited]
    exact .some (.file hbytes m m')
  · have hkept := h.kept l' hl
    cases he : t.entry? l' with
    | none =>
      rw [hkept.entry?_eq_none he]
      exact .none
    | some e =>
      cases e with
      | directory m =>
        obtain ⟨m', he'⟩ := hkept.entry?_eq_directory he
        rw [he']
        exact .some (.directory m m')
      | file bytes m =>
        obtain ⟨m', he'⟩ := hkept.entry?_eq_file he
        rw [he']
        exact .some (.file (.inl rfl) m m')

end FileTree

/-! ### Unfolding in another order -/

namespace Module

variable {t t' : FileTree} {project path : Path} {m m' child : Module} {above above' : List Module}
  {rs rs' : List String} {os : List Occurrence} {ending : Option Failure} {reference : String}

/-- In one tree references in another order unfold to the same occurrences in another order. -/
theorem Unfolds.perm (hperm : rs.Perm rs') (h : Unfolds t project m above rs os none) :
    ∃ os', Unfolds t project m above rs' os' none ∧ os'.Perm os := by
  induction hperm generalizing os with
  | nil => exact ⟨os, h, .refl os⟩
  | cons r _ ih =>
    cases h with
    | next href below rest =>
      obtain ⟨os', rest', hos⟩ := ih rest
      exact ⟨_, .next href below rest', hos.append_left _⟩
  | swap r r' rs =>
    cases h with
    | next href below rest =>
      cases rest with
      | next href' below' rest =>
        refine ⟨_, .next href' below' (.next href below rest), ?_⟩
        rw [← List.append_assoc, ← List.append_assoc]
        exact List.perm_append_comm.append_right _
  | trans _ _ ih ih' =>
    obtain ⟨os₁, h₁, hos₁⟩ := ih h
    obtain ⟨os₂, h₂, hos₂⟩ := ih' h₁
    exact ⟨os₂, h₂, hos₂.trans hos₁⟩

theorem load_eq_ok_of_reordered (h : t.Reordered t') (hload : load t project path = .ok m) :
    ∃ m', load t' project path = .ok m' ∧ m.Reordered m' := by
  unfold load at hload ⊢
  dsimp only at hload ⊢
  rw [h.sameShape.isFile_eq]
  obtain ⟨b, hb, hload⟩ := bind_eq_ok.mp hload
  rw [hb, ok_bind]
  cases b with
  | false => cases hload
  | true =>
    obtain ⟨bytes, hread, hload⟩ := bind_eq_ok.mp hload
    obtain ⟨bytes', hread', hbytes⟩ := h.read_eq_ok (mapError_eq_ok.mp hread)
    obtain ⟨m', hm', hr⟩ := hbytes.ofBytes_eq_ok (mapError_eq_ok.mp hload)
    refine ⟨m', ?_, hr⟩
    rw [if_pos rfl, hread', mapError_ok, ok_bind, hm', mapError_ok]

/-- A reference leads to the same module, but for the order of its references. -/
theorem refer_eq_ok_of_reordered (h : t.Reordered t') (hm : m.Reordered m')
    (habove : List.Forall₂ Reordered above above') (href : refer t project m above reference = .ok child) :
    ∃ child', refer t' project m' above' reference = .ok child' ∧ child.Reordered child' := by
  have hchain : (m :: above).map (·.path) = (m' :: above').map (·.path) := by
    apply map_eq_map_iff_forall₂.mpr
    exact (List.Forall₂.cons hm habove).imp fun _ _ hm ↦ hm.path_eq
  have hpath : submodulePath t' project m'.directory reference = submodulePath t project m.directory reference := by
    unfold submodulePath
    simp only [hm.directory_eq, h.sameShape.isDirectory_eq]
  unfold refer at href ⊢
  dsimp only at href ⊢
  rw [hpath, ← hchain]
  obtain ⟨q, hq, href⟩ := bind_eq_ok.mp href
  rw [hq, ok_bind]
  split at href
  · cases href
  · next hmem =>
    obtain ⟨child', hload', hchild⟩ := load_eq_ok_of_reordered h (mapError_eq_ok.mp href)
    exact ⟨child', by rw [if_neg hmem, hload', mapError_ok], hchild⟩

end Module

/-- The occurrence without the references of modules. -/
def Occurrence.withoutSubmodules (o : Occurrence) : Occurrence :=
  ⟨o.module.withoutSubmodules, o.ancestors.map Module.withoutSubmodules⟩

/-- In both trees references unfold to the same occurrences in some order, but for the order of the references of the
modules that occur. -/
theorem Module.Unfolds.reordered {t t' : FileTree} {project : Path} {m m' : Module} {above above' : List Module}
    {rs : List String} {os : List Occurrence} {ending : Option Failure} (h : Unfolds t project m above rs os ending)
    (hend : ending = none) (ht : t.Reordered t') (hm : m.Reordered m') (habove : List.Forall₂ Reordered above above') :
    ∃ os', Unfolds t' project m' above' rs os' none ∧
      (os'.map Occurrence.withoutSubmodules).Perm (os.map Occurrence.withoutSubmodules) := by
  induction h generalizing m' above' with
  | done => exact ⟨[], .done, .refl _⟩
  | broken _ => cases hend
  | cut _ _ _ => cases hend
  | @next m child above r rs os₁ os₂ ending href below rest ih ihrest =>
    obtain ⟨child', href', hchild⟩ := refer_eq_ok_of_reordered ht hm habove href
    have habove' := List.Forall₂.cons hm habove
    obtain ⟨os₁', hbelow, hos₁⟩ := ih rfl hchild habove'
    -- the module that is referred to has its references in another order
    obtain ⟨os₁'', hbelow', hos₁'⟩ := hbelow.perm hchild.submodules
    obtain ⟨os₂', hrest, hos₂⟩ := ihrest hend hm habove
    have hfirst : (⟨child', m' :: above'⟩ : Occurrence).withoutSubmodules =
        (⟨child, m :: above⟩ : Occurrence).withoutSubmodules := by
      have hlineage : (m' :: above').map Module.withoutSubmodules = (m :: above).map Module.withoutSubmodules := by
        apply Eq.symm
        apply map_eq_map_iff_forall₂.mpr
        exact habove'.imp fun _ _ h ↦ h.withoutSubmodules
      rw [Occurrence.withoutSubmodules, Occurrence.withoutSubmodules, hlineage, hchild.withoutSubmodules]
    have hinner : (os₁''.map Occurrence.withoutSubmodules).Perm (os₁.map Occurrence.withoutSubmodules) :=
      (hos₁'.map _).trans hos₁
    refine ⟨_, .next href' hbelow' hrest, ?_⟩
    rw [List.map_append, List.map_append, List.map_cons, List.map_cons, hfirst]
    exact (hinner.cons _).append hos₂

end ModuleBuild
