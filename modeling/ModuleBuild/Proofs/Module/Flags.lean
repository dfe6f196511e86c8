import ModuleBuild.Proofs.FileTree.Contents
import ModuleBuild.Proofs.Module.Reaching

/-!
# Modules that differ in flags

Two trees may differ in the flags that some descriptors set. Then a reference leads to the same module in both, but for
its flags, so that the module tree unfolds in the same way, to the same ending (`Module.Unfolds.agreesOff`). So it is if
the trees differ in one file that describes the same module but for flags (`Module.loadsAlike_of_edited`).
-/

namespace ModuleBuild

/-- Two lists have the same images if their members have, in order. -/
theorem map_eq_map_iff_forall₂ {α β γ : Type} {f : α → γ} {g : β → γ} {xs : List α} {ys : List β} :
    xs.map f = ys.map g ↔ List.Forall₂ (fun x y ↦ f x = g y) xs ys := by
  rw [← List.forall₂_eq_eq_eq, List.forall₂_map_left_iff, List.forall₂_map_right_iff]

variable {D : Set Path} {t t' : FileTree} {project : Path}

namespace Module

variable {m m' child : Module} {above above' : List Module} {path : Path} {reference : String}

/-- The module without the flags that it sets. -/
def withoutFlags (m : Module) : Module :=
  { m with cflags := [], cxxflags := [], defines := [], includeDirs := [] }

/-- The modules are the same, but for the flags that they set if their descriptor is in `D`. -/
structure AgreesOff (D : Set Path) (m m' : Module) : Prop where
  withoutFlags : m.withoutFlags = m'.withoutFlags
  eq_of_notMem : m.path ∉ D → m = m'

theorem AgreesOff.path_eq (h : m.AgreesOff D m') : m.path = m'.path := (congrArg Module.path h.withoutFlags :)

theorem AgreesOff.directory_eq (h : m.AgreesOff D m') : m.directory = m'.directory :=
  (congrArg Module.directory h.withoutFlags :)

theorem AgreesOff.submodules_eq (h : m.AgreesOff D m') : m.submodules = m'.submodules :=
  (congrArg Module.submodules h.withoutFlags :)

theorem AgreesOff.project_eq (h : m.AgreesOff D m') : m.project = m'.project :=
  (congrArg Module.project h.withoutFlags :)

theorem map_path_eq (h : List.Forall₂ (AgreesOff D) above above') : above.map (·.path) = above'.map (·.path) := by
  apply map_eq_map_iff_forall₂.mpr
  exact h.imp fun _ _ hm ↦ hm.path_eq

/-- In both trees the same module is loaded at a path, but for the flags that it sets if the path is in `D`, or there is
the same failure. -/
structure LoadsAlike (D : Set Path) (t t' : FileTree) (project path : Path) : Prop where
  withoutFlags : (load t project path).map withoutFlags = (load t' project path).map withoutFlags
  eq_of_notMem : path ∉ D → load t project path = load t' project path

theorem LoadsAlike.load_eq_error (h : LoadsAlike D t t' project path) {e : LoadFailure}
    (hload : load t project path = .error e) : load t' project path = .error e := by
  have hmap := h.withoutFlags
  rw [hload] at hmap
  cases hload' : load t' project path with
  | error e' =>
    rw [hload'] at hmap
    exact hmap.symm
  | ok m' =>
    rw [hload'] at hmap
    cases hmap

theorem LoadsAlike.load_eq_ok (h : LoadsAlike D t t' project path) (hload : load t project path = .ok m) :
    ∃ m', load t' project path = .ok m' ∧ m.AgreesOff D m' := by
  have hmap := h.withoutFlags
  rw [hload] at hmap
  obtain ⟨m', hload', hm'⟩ := map_eq_ok.mp hmap.symm
  refine ⟨m', hload', hm'.symm, fun hpath ↦ ?_⟩
  rw [(path_of_load hload).1] at hpath
  exact Except.ok.inj (hload.symm.trans ((h.eq_of_notMem hpath).trans hload'))

/-- In both trees a reference leads from a directory to the same path, and there to the same module but for flags. -/
structure LeadsAlike (D : Set Path) (t t' : FileTree) (project directory : Path) (reference : String) : Prop where
  path : submodulePath t project directory reference = submodulePath t' project directory reference
  loads : ∀ q, submodulePath t project directory reference = .ok q → LoadsAlike D t t' project q

section Refer

variable (hm : m.AgreesOff D m') (habove : List.Forall₂ (AgreesOff D) above above')
  (h : LeadsAlike D t t' project m.directory reference)

include hm habove h

/-- A reference that leads nowhere leads nowhere in the other tree. -/
theorem refer_eq_error_of_leadsAlike {f : Failure} (href : refer t project m above reference = .error f) :
    refer t' project m' above' reference = .error f := by
  have hchain := map_path_eq (.cons hm habove)
  unfold refer at href ⊢
  rw [← hm.directory_eq, ← h.path]
  cases hq : submodulePath t project m.directory reference with
  | error e =>
    rw [hq] at href
    exact href
  | ok q =>
    rw [hq, mapError_ok, ok_bind] at href
    rw [mapError_ok, ok_bind]
    dsimp only at href ⊢
    rw [← hchain]
    split at href
    · next hmem =>
      rw [if_pos hmem]
      exact href
    · next hmem =>
      rw [if_neg hmem]
      cases hload : load t project q with
      | error e =>
        rw [hload] at href
        rw [(h.loads q hq).load_eq_error hload]
        exact href
      | ok m =>
        rw [hload] at href
        cases href

/-- A reference leads to the same module in the other tree, but for flags. -/
theorem refer_eq_ok_of_leadsAlike (href : refer t project m above reference = .ok child) :
    ∃ child', refer t' project m' above' reference = .ok child' ∧ child.AgreesOff D child' := by
  have hchain := map_path_eq (.cons hm habove)
  unfold refer at href ⊢
  rw [← hm.directory_eq, ← h.path]
  obtain ⟨q, hq, href⟩ := bind_eq_ok.mp href
  rw [mapError_eq_ok] at hq
  rw [hq, mapError_ok, ok_bind]
  dsimp only at href ⊢
  rw [← hchain]
  split at href
  · cases href
  · next hmem =>
    rw [if_neg hmem]
    obtain ⟨child', hload', hchild⟩ := (h.loads q hq).load_eq_ok (mapError_eq_ok.mp href)
    exact ⟨child', mapError_eq_ok.mpr hload', hchild⟩

end Refer

end Module

/-- The occurrences are those of the same modules below the same modules, but for flags. -/
structure Occurrence.AgreesOff (D : Set Path) (o o' : Occurrence) : Prop where
  module : o.module.AgreesOff D o'.module
  ancestors : List.Forall₂ (Module.AgreesOff D) o.ancestors o'.ancestors

/-- If all references that are taken up lead alike in both trees, they unfold alike. -/
theorem Module.Unfolds.agreesOff {m m' : Module} {above above' : List Module} {rs : List String}
    {os : List Occurrence} {ending : Option Failure} (h : Unfolds t project m above rs os ending)
    (hm : m.AgreesOff D m') (habove : List.Forall₂ (AgreesOff D) above above')
    (hleads : ∀ before o r, Reaches t project m above rs before o r →
      LeadsAlike D t t' project o.module.directory r) :
    ∃ os', Unfolds t' project m' above' rs os' ending ∧ List.Forall₂ (Occurrence.AgreesOff D) os os' := by
  induction h generalizing m' above' with
  | done => exact ⟨[], .done, .nil⟩
  | broken href =>
    exact ⟨[], .broken (refer_eq_error_of_leadsAlike hm habove (hleads _ _ _ .here) href), .nil⟩
  | cut href _ ih =>
    obtain ⟨child', href', hchild⟩ := refer_eq_ok_of_leadsAlike hm habove (hleads _ _ _ .here) href
    have habove' := List.Forall₂.cons hm habove
    obtain ⟨os', hunfolds, hos⟩ := ih hchild habove' fun _ o r hr ↦ hleads _ o r (.inside href hr)
    rw [hchild.submodules_eq] at hunfolds
    exact ⟨_, .cut href' hunfolds, .cons ⟨hchild, habove'⟩ hos⟩
  | next href inner _ ih ihrest =>
    obtain ⟨child', href', hchild⟩ := refer_eq_ok_of_leadsAlike hm habove (hleads _ _ _ .here) href
    have habove' := List.Forall₂.cons hm habove
    obtain ⟨os', hunfolds, hos⟩ := ih hchild habove' fun _ o r hr ↦ hleads _ o r (.inside href hr)
    rw [hchild.submodules_eq] at hunfolds
    obtain ⟨os₂, hrest, hos₂⟩ := ihrest hm habove fun _ o r hr ↦ hleads _ o r (.past href inner hr)
    exact ⟨_, .next href' hunfolds hrest, List.rel_append (.cons ⟨hchild, habove'⟩ hos) hos₂⟩

/-! ### Trees that differ in one file -/

namespace Module

/-- What a file describes does not hang on where it stands, apart from the paths themselves. -/
theorem ofBytes_eq (path : Path) (bytes : ByteArray) :
    ofBytes path bytes =
      match ofBytes .here bytes with
      | .ok m => .ok { m with path, directory := directoryOf path }
      | .error (.notFound _) => .error (.notFound path)
      | .error (.notUtf8 _ fault) => .error (.notUtf8 path fault)
      | .error (.notIni _ fault) => .error (.notIni path fault) := by
  unfold ofBytes
  dsimp only
  split
  · rfl
  · rfl
  · next st _ _ => cases st.finish <;> rfl

/-- Files that describe the same module but for flags do so wherever they stand. -/
theorem ofBytes_agreesOff {bytes bytes' : ByteArray}
    (h : (ofBytes .here bytes).map withoutFlags = (ofBytes .here bytes').map withoutFlags) (path : Path) :
    (ofBytes path bytes).map withoutFlags = (ofBytes path bytes').map withoutFlags := by
  rw [ofBytes_eq path bytes, ofBytes_eq path bytes']
  cases hb : ofBytes .here bytes with
  | error e =>
    rw [hb] at h
    cases hb' : ofBytes .here bytes' with
    | error e' =>
      rw [hb'] at h
      obtain rfl : e = e' := by simpa [Except.map] using h
      rfl
    | ok m' =>
      rw [hb'] at h
      cases h
  | ok m =>
    rw [hb] at h
    obtain ⟨m', hb', hm⟩ := map_eq_ok.mp h.symm
    rw [hb']
    have hsame := congrArg (fun m : Module ↦ { m with path, directory := directoryOf path }) hm.symm
    exact congrArg Except.ok hsame

section Edited

variable {l : Location} {bytes bytes' : ByteArray} (h : t.EditedAt t' l bytes bytes')
  (hbytes : (ofBytes .here bytes).map withoutFlags = (ofBytes .here bytes').map withoutFlags)

include h hbytes

/-- If a file is edited that describes the same module but for flags, other modules are loaded as they were, and that one
but for its flags. -/
theorem loadsAlike_of_edited (project path : Path) :
    LoadsAlike { q | t.place (project / q) = l } t t' project path := by
  by_cases hplace : t.place (project / path) = l
  · refine ⟨?_, fun hpath ↦ absurd hplace hpath⟩
    unfold load
    dsimp only
    rw [h.sameShape.isFile_eq]
    cases hfile : t.isFile (project / path) with
    | error e => rfl
    | ok b =>
      cases b with
      | false => rfl
      | true =>
        obtain ⟨hread, hread'⟩ := h.read_eq hplace hfile
        simp only [mapError_ok, ok_bind, if_true, hread, hread']
        rw [map_mapError, map_mapError, ofBytes_agreesOff hbytes path]
  · have hload : load t project path = load t' project path := by
      unfold load
      dsimp only
      rw [h.sameShape.isFile_eq, (h.alikeAt hplace).read_eq]
    exact ⟨congrArg _ hload, fun _ ↦ hload⟩

/-- References lead alike. -/
theorem leadsAlike_of_edited (project directory : Path) (reference : String) :
    LeadsAlike { q | t.place (project / q) = l } t t' project directory reference where
  path := by
    unfold submodulePath
    simp only [h.sameShape.isDirectory_eq]
  loads := fun q _ ↦ loadsAlike_of_edited h hbytes project q

end Edited

end Module

end ModuleBuild
