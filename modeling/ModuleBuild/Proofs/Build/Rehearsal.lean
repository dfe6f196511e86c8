import ModuleBuild.Proofs.Build.Progress
import ModuleBuild.Proofs.Graph.Persistence

/-!
# Rehearsals

Rehearsed tools keep the contract with a graph if their script writes what the graph's commands are for
(`Serves.obeys_toolchain`). They go by what files hold (`agrees_toolchain`), and can be made to fail
(`mayFail_toolchain`). The conditions on trees and graphs can be computed, so that they can be checked for
projects that are rehearsed.
-/

namespace ModuleBuild

namespace FileTree

variable {t t₁ t' : FileTree} {now : Timestamp} {p : Path} {ps : List Path}

theorem Written.nil (t : FileTree) (now : Timestamp) : t.Written t now [] where
  current := rfl
  clock := rfl
  locate := by simp
  notDirectory := by simp
  file := by simp
  kept := fun _ _ ↦ rfl

/-- Files are written one after another. -/
theorem Written.cons (h : t.Written t₁ now [p]) (h' : t₁.Written t' now ps) :
    t.Written t' now (p :: ps) := by
  have hplace := place_congr h.current
  refine ⟨h'.current.trans h.current, h'.clock.trans h.clock, fun q hq ↦ ?_, fun q hq m hm ↦ ?_,
    fun q hq ↦ ?_, fun l hl ↦ ?_⟩
  · rcases List.mem_cons.mp hq with rfl | hq
    · exact h.locate q List.mem_cons_self
    · exact hplace q ▸ locate_of_directory h.current.symm
        (fun l m hm ↦ ⟨m, h.directory_of hm⟩) (h'.locate q hq)
  · rcases List.mem_cons.mp hq with rfl | hq
    · exact h.notDirectory q List.mem_cons_self m hm
    · exact h'.notDirectory q hq m (hplace q ▸ h.alters.directory hm)
  · by_cases hmem : ∃ q' ∈ ps, t.place q = t.place q'
    · obtain ⟨q', hq', heq⟩ := hmem
      exact heq ▸ hplace q' ▸ h'.file q' hq'
    · push Not at hmem
      rw [h'.kept _ fun q' hq' heq ↦ hmem q' hq' (hplace q' ▸ heq)]
      rcases List.mem_cons.mp hq with rfl | hq
      · exact h.file q List.mem_cons_self
      · exact absurd rfl (hmem q hq)
  · rw [h'.kept l fun q hq heq ↦ hl q (List.mem_cons_of_mem _ hq) (hplace q ▸ heq)]
    exact h.kept l fun q hq heq ↦ hl q (List.mem_singleton.mp hq ▸ List.mem_cons_self) heq

/-- Writing a file writes at its path. -/
theorem written_write {bytes : ByteArray} (h : t.write p bytes now = .ok t') :
    t.Written t' now [p] := by
  obtain ⟨l, hl, hnew, rfl⟩ := write_eq_ok.mp h
  obtain rfl := eq_place_of_locate hl
  have hroot : t.place p ≠ [] := fun hnil ↦ hnew t.clock (by rw [hnil, entry?_nil])
  refine ⟨rfl, rfl, by simpa using hl, by simpa using hnew, ?_, ?_⟩
  · simp [entry?_put, hroot]
  · intro l hne
    simp [entry?_put, hne p List.mem_cons_self]

theorem Gains.nil (t : FileTree) : t.Gains t [] where
  current := rfl
  clock := rfl
  admits := by simp [Admits]
  file := by simp
  kept := fun _ _ ↦ rfl

/-- Files are written one after another, each at a place of its own. -/
theorem Gains.cons {bytes : ByteArray} {files : List (Path × ByteArray)} (h : t.write p bytes now = .ok t₁)
    (h' : t₁.Gains t' files) (hnew : ∀ f ∈ files, t.place p ≠ t.place f.1) :
    t.Gains t' ((p, bytes) :: files) := by
  have hwritten := written_write h
  have hplace := place_congr hwritten.current
  obtain ⟨l, hl, hfree, rfl⟩ := write_eq_ok.mp h
  obtain rfl := eq_place_of_locate hl
  have hroot : t.place p ≠ [] := fun hnil ↦ hfree t.clock (by rw [hnil, entry?_nil])
  refine ⟨h'.current, h'.clock, fun q hq ↦ ?_, fun f hf ↦ ?_, fun l hne ↦ ?_⟩
  · rcases List.mem_cons.mp hq with rfl | hq
    · exact ⟨hl, hfree⟩
    · obtain ⟨hlocate, hfree'⟩ := h'.admits q hq
      rw [hplace] at hlocate hfree'
      refine ⟨locate_of_directory hwritten.current.symm (fun l m hm ↦ ⟨m, hwritten.directory_of hm⟩) hlocate,
        fun m hm ↦ hfree' m (hwritten.alters.directory hm)⟩
  · rcases List.mem_cons.mp hf with rfl | hf
    · refine ⟨now, ?_⟩
      rw [h'.kept _ fun f hf ↦ hplace f.1 ▸ hnew f hf, entry?_put, if_pos ⟨hroot, rfl⟩]
    · exact hplace f.1 ▸ h'.file f hf
  · rw [h'.kept l fun f hf ↦ hplace f.1 ▸ hne f (List.mem_cons_of_mem _ hf), entry?_put,
      if_neg fun hl ↦ hne _ List.mem_cons_self hl.2]

theorem Alters.nil (t : FileTree) : t.Alters t [] where
  current := rfl
  clock := rfl
  admits := by simp [Admits]
  kept := fun _ _ ↦ rfl

/-- Files are changed one after another. -/
theorem Alters.cons {bytes : ByteArray} (h : t.write p bytes now = .ok t₁) (h' : t₁.Alters t' ps) :
    t.Alters t' (p :: ps) := by
  have hwritten := written_write h
  have hplace := place_congr hwritten.current
  refine ⟨h'.current.trans hwritten.current, h'.clock.trans hwritten.clock, fun q hq ↦ ?_, fun l hne ↦ ?_⟩
  · rcases List.mem_cons.mp hq with rfl | hq
    · exact hwritten.alters.admits q List.mem_cons_self
    · obtain ⟨hlocate, hfree⟩ := h'.admits q hq
      rw [hplace] at hlocate hfree
      exact ⟨locate_of_directory hwritten.current.symm (fun l m hm ↦ ⟨m, hwritten.directory_of hm⟩) hlocate,
        fun m hm ↦ hfree m (hwritten.alters.directory hm)⟩
  · rw [h'.kept l fun q hq ↦ hplace q ▸ hne q (List.mem_cons_of_mem _ hq)]
    exact hwritten.kept l fun q hq ↦ List.mem_singleton.mp hq ▸ hne p List.mem_cons_self

/-! ### Trees that are well-formed can be told -/

/-- A directory stands at the location. -/
def isDirectoryAt (t : FileTree) (l : Location) : Bool := ( t.entry? l).any (!·.isFile)

theorem isDirectoryAt_eq_true {l : Location} :
    t.isDirectoryAt l = true ↔ ∃ m, t.entry? l = some (.directory m) := by
  unfold isDirectoryAt
  rw [Option.any_eq_true]
  constructor
  · rintro ⟨e, he, hdir⟩
    cases e with
    | file bytes m => simp [Entry.isFile] at hdir
    | directory m => exact ⟨m, he⟩
  · rintro ⟨m, hm⟩
    exact ⟨_, hm, rfl⟩

/-- Only what the tree has nodes for has to stand in a directory. -/
theorem wellFormed_iff : t.WellFormed ↔ t.isDirectoryAt t.current ∧
    ∀ l ∈ t.nodes.keys, l ≠ [] → t.isDirectoryAt l.tail := by
  constructor
  · refine fun h ↦ ⟨isDirectoryAt_eq_true.mpr h.current, fun l hl hne ↦ ?_⟩
    obtain ⟨s, l, rfl⟩ := List.exists_cons_of_ne_nil hne
    obtain ⟨e, he⟩ := Option.isSome_iff_exists.mp ((Table.contains_iff_mem_keys ..).mpr hl)
    refine isDirectoryAt_eq_true.mpr (h.parent s l e ?_)
    rw [ entry?, if_neg hne]
    exact he
  · rintro ⟨hcurrent, hkeys⟩
    refine ⟨isDirectoryAt_eq_true.mp hcurrent, fun s l e he ↦ ?_⟩
    exact isDirectoryAt_eq_true.mp (hkeys _ (mem_keys_of_entry (by simp) he) (by simp))

instance (t : FileTree) : Decidable t.WellFormed := decidable_of_iff _ wellFormed_iff.symm

/-- Only what the tree has nodes for can be later than the clock. -/
theorem noLater_iff : t.NoLater now ↔
    t.clock ≤ now ∧ ∀ l ∈ t.nodes.keys, ∀ e ∈ t.entry? l, e.modified ≤ now := by
  constructor
  · exact fun h ↦ ⟨h [] _ (entry?_nil t), fun l _ e he ↦ h l e he⟩
  · rintro ⟨hclock, hkeys⟩ l e he
    by_cases hl : l = []
    · rw [hl, entry?_nil] at he
      exact Option.some.inj he ▸ hclock
    · exact hkeys l (mem_keys_of_entry hl he) e he

instance (t : FileTree) (now : Timestamp) : Decidable (t.NoLater now) :=
  decidable_of_iff _ noLater_iff.symm

/-- Only what the tree has nodes for can be a file. -/
theorem filesBefore_iff : t.FilesBefore now ↔
    ∀ l ∈ t.nodes.keys, ∀ e ∈ t.entry? l, e.isFile → e.modified < now := by
  constructor
  · intro h l _ e he hfile
    cases e with
    | file bytes m => exact h l bytes m he
    | directory m => simp [Entry.isFile] at hfile
  · intro h l bytes m he
    exact h l (mem_keys_of_file he) _ he rfl

instance (t : FileTree) (now : Timestamp) : Decidable (t.FilesBefore now) :=
  decidable_of_iff _ filesBefore_iff.symm

end FileTree

namespace Graph

instance (g : Graph) (t : FileTree) (project : Path) : Decidable (g.OutputsApart t project) :=
  decidable_of_iff (_ ∧ _ ∧ _) ⟨fun ⟨hs, hn, hb⟩ ↦ ⟨hs, hn, hb⟩, fun ⟨hs, hn, hb⟩ ↦ ⟨hs, hn, hb⟩⟩

instance (g : Graph) (t : FileTree) (project : Path) : Decidable (g.PrerequisitesApart t project) :=
  decidable_of_iff (_ ∧ _ ∧ _) ⟨fun ⟨hs, hn, hb⟩ ↦ ⟨hs, hn, hb⟩, fun ⟨hs, hn, hb⟩ ↦ ⟨hs, hn, hb⟩⟩

instance (g : Graph) (t : FileTree) (project : Path) : Decidable (g.DirectoriesThere t project) := by
  unfold DirectoriesThere
  infer_instance

instance (g : Graph) (t : FileTree) (project : Path) : Decidable (g.KeptApart t project) :=
  decidable_of_iff (_ ∧ _ ∧ _) ⟨fun ⟨hw, ho, hp⟩ ↦ ⟨hw, ho, hp⟩, fun ⟨hw, ho, hp⟩ ↦ ⟨hw, ho, hp⟩⟩

instance (g : Graph) (t : FileTree) (project : Path) : Decidable (g.LaidOut t project) :=
  decidable_of_iff (g.KeptApart t project ∧ g.DirectoriesThere t project)
    ⟨fun ⟨ha, hd⟩ ↦ ⟨ha, hd⟩, fun ⟨ha, hd⟩ ↦ ⟨ha, hd⟩⟩

end Graph

instance (p : Path) : Decidable p.IsNameable :=
  decidable_of_iff (_ ∧ _ ∧ _) ⟨fun ⟨hc, hs, hn⟩ ↦ ⟨hc, hs, hn⟩, fun ⟨hc, hs, hn⟩ ↦ ⟨hc, hs, hn⟩⟩

namespace ToolScript

variable {s : ToolScript} {g : Graph} {t t' : FileTree}

/-- What the script writes for the commands of a graph is what they are for. -/
structure Serves (s : ToolScript) (g : Graph) : Prop where
  compile : ∀ e ∈ g.compileActions.entries, ∀ command ∈ e.2.command.words?,
    (s.products command).map Prod.fst = [e.2.object.path] ∨
      ∃ listing ∈ e.2.object.listing.toOption,
        (s.products command).map Prod.fst = [e.2.object.path, listing]
  realize : ∀ e ∈ g.targetActions.entries, ∀ command ∈ e.2.command.words?,
    (s.products command).map Prod.fst = [e.2.target]

instance (s : ToolScript) (g : Graph) : Decidable (s.Serves g) :=
  decidable_of_iff (_ ∧ _) ⟨fun ⟨hc, hr⟩ ↦ ⟨hc, hr⟩, fun ⟨hc, hr⟩ ↦ ⟨hc, hr⟩⟩

/-- Writing files one after another writes at their paths. -/
theorem written_writeAll {files : List (Path × String)} (h : s.writeAll t files = (t', .ok ())) :
    t.Written t' s.now (files.map Prod.fst) := by
  induction files generalizing t with
  | nil =>
    obtain rfl := congrArg Prod.fst h
    exact .nil ..
  | cons file files ih =>
    rw [writeAll] at h
    split at h
    · simp at h
    · next hwrite => exact (FileTree.written_write hwrite).cons (ih h)

/-- Files that can be written are written, one after another. -/
theorem exists_writeAll {files : List (Path × String)} (h : t.Admits (files.map Prod.fst)) :
    ∃ t', s.writeAll t files = (t', .ok ()) := by
  induction files generalizing t with
  | nil => exact ⟨t, rfl⟩
  | cons file files ih =>
    obtain ⟨p, text⟩ := file
    obtain ⟨hlocate, hfree⟩ := h p List.mem_cons_self
    have hwrite : t.write p text.toUTF8 s.now = .ok (t.put (t.place p) (.file text.toUTF8 s.now)) :=
      FileTree.write_eq_ok.mpr ⟨_, hlocate, hfree, rfl⟩
    rw [writeAll, hwrite]
    refine ih fun q hq ↦ ?_
    obtain ⟨hlocate', hfree'⟩ := h q (List.mem_cons_of_mem _ hq)
    have hwritten := FileTree.written_write hwrite
    rw [FileTree.place_congr hwritten.current]
    exact ⟨FileTree.locate_put hfree hlocate', fun m hm ↦ hfree' m (hwritten.directory_of hm)⟩

/-- Files with places of their own, written one after another, are what the tree gains. -/
theorem gains_writeAll {files : List (Path × String)} (h : s.writeAll t files = (t', .ok ()))
    (hnew : files.Pairwise fun f f' ↦ t.place f.1 ≠ t.place f'.1) :
    t.Gains t' (files.map fun f ↦ (f.1, f.2.toUTF8)) := by
  induction files generalizing t with
  | nil =>
    obtain rfl := congrArg Prod.fst h
    exact .nil t
  | cons file files ih =>
    obtain ⟨hfirst, hrest⟩ := List.pairwise_cons.mp hnew
    rw [writeAll] at h
    split at h
    · simp at h
    · next hwrite =>
      have hplace := FileTree.place_congr (FileTree.written_write hwrite).current
      refine .cons hwrite (ih h ?_) ?_
      · simpa only [hplace] using hrest
      · intro f hf
        obtain ⟨f', hf', rfl⟩ := List.mem_map.mp hf
        exact hfirst f' hf'

/-- Where not all files can be written some have been. -/
theorem exists_alters_writeAll {files : List (Path × String)} {answer : Except FileError Unit}
    (h : s.writeAll t files = (t', answer)) :
    ∃ ps, (∀ q ∈ ps, q ∈ files.map Prod.fst) ∧ t.Alters t' ps := by
  induction files generalizing t with
  | nil =>
    obtain rfl := congrArg Prod.fst h
    exact ⟨[], by simp, .nil t⟩
  | cons file files ih =>
    rw [writeAll] at h
    split at h
    · obtain rfl := congrArg Prod.fst h
      exact ⟨[], by simp, .nil t⟩
    · next hwrite =>
      obtain ⟨ps, hps, halters⟩ := ih h
      refine ⟨_ :: ps, fun q hq ↦ ?_, .cons hwrite halters⟩
      rw [List.map_cons]
      rcases List.mem_cons.mp hq with rfl | hq
      · exact List.mem_cons_self
      · exact List.mem_cons_of_mem _ (hps q hq)

/-- A command changes at most its products, however it ends. -/
theorem exists_alters_toolchain {project : Path} {command : List String} {r : Response}
    (h : s.toolchain t project command = (t', r)) :
    ∃ ps, (∀ q ∈ ps, q ∈ (s.products command).map Prod.fst) ∧ t.Alters t' ps := by
  have hnothing : ∃ ps, (∀ q ∈ ps, q ∈ (s.products command).map Prod.fst) ∧ t.Alters t ps :=
    ⟨[], by simp, .nil t⟩
  unfold toolchain at h
  dsimp only at h
  split at h
  · exact (Prod.mk.inj h).1 ▸ hnothing
  · split at h
    · exact (Prod.mk.inj h).1 ▸ hnothing
    · split at h
      · exact (Prod.mk.inj h).1 ▸ hnothing
      · cases hwrite : s.writeAll t (s.products command) with
        | mk t₁ answer =>
          rw [hwrite] at h
          cases answer <;> exact (Prod.mk.inj h).1 ▸ exists_alters_writeAll hwrite

/-- Whether a command succeeds hangs on whether its products can be written, and on the command itself. -/
theorem isSuccess_toolchain {u : FileTree} {project : Path} {command : List String}
    (h : (s.toolchain t project command).2.IsSuccess) :
    ∃ t', s.writeAll t (s.products command) = (t', .ok ()) ∧ (s.toolchain t project command).1 = t' ∧
      ∀ u', s.writeAll u (s.products command) = (u', .ok ()) →
        (s.toolchain u project command).2.IsSuccess := by
  unfold toolchain at h ⊢
  dsimp only at h ⊢
  split at h
  · obtain ⟨_, _, h⟩ := h
    simp at h
  · next hmissing =>
    split at h
    · obtain ⟨_, _, h⟩ := h
      simp at h
    · next hinterrupt =>
      split at h
      · obtain ⟨_, _, h⟩ := h
        simp at h
      · next hfail =>
        cases hwrite : s.writeAll t (s.products command) with
        | mk t' answer =>
          rw [hwrite] at h
          cases answer with
          | error e =>
            obtain ⟨_, _, h⟩ := h
            simp at h
          | ok _ =>
            refine ⟨t', rfl, by rw [if_neg hmissing, if_neg hinterrupt, if_neg hfail], fun u' hu ↦ ?_⟩
            rw [if_neg hmissing, if_neg hinterrupt, if_neg hfail, hu]
            exact ⟨_, _, rfl⟩

/-- A command that succeeds has written its products. -/
theorem written_toolchain {project : Path} {command : List String} {r : Response}
    (h : s.toolchain t project command = (t', r)) (hr : r.IsSuccess) :
    t.Written t' s.now ((s.products command).map Prod.fst) := by
  have hsuccess : (s.toolchain t project command).2.IsSuccess := h ▸ hr
  obtain ⟨t₁, hwrite, htree, -⟩ := isSuccess_toolchain (u := t) hsuccess
  obtain rfl : t' = t₁ := by rwa [h] at htree
  exact written_writeAll hwrite

/-- Rehearsed tools keep the contract with a graph that their script serves. -/
theorem Serves.obeys_toolchain (h : s.Serves g) : s.toolchain.Obeys g .here s.now where
  compile := by
    intro p a command t t' r ha hwords htool hr
    have hwritten := written_toolchain htool hr
    simp only [Path.here_join]
    rcases h.compile _ (Table.mem_of_find? ha) command hwords with hp | ⟨listing, hl, hp⟩
    · exact .inl (hp ▸ hwritten)
    · refine .inr ⟨listing, ?_, hp ▸ hwritten⟩
      cases hlisting : a.object.listing with
      | error e => simp [hlisting, Except.toOption] at hl
      | ok q => simpa [hlisting, Except.toOption] using hl
  realize := by
    intro p a command t t' r ha hwords htool hr
    have hwritten := written_toolchain htool hr
    rw [Path.here_join]
    exact h.realize _ (Table.mem_of_find? ha) command hwords ▸ hwritten

/-- What a script writes for a compile may be written for it. -/
theorem Serves.mayWrite (h : s.Serves g) {p : Path} {a : CompileAction} {command : List String}
    (ha : g.compileActions.find? p = some a) (hwords : a.command.words? = some command) :
    ∀ q ∈ (s.products command).map Prod.fst, a.object.MayWrite .here q := by
  intro q hq
  simp only [ObjectRecord.MayWrite, Path.here_join]
  rcases h.compile _ (Table.mem_of_find? ha) command hwords with hp | ⟨listing, hl, hp⟩
  · rw [hp, List.mem_singleton] at hq
    exact .inl hq
  · rw [hp, List.mem_cons, List.mem_singleton] at hq
    exact hq.imp_right fun hq ↦ ⟨listing, toOption_eq_some.mp hl, hq⟩

/-- Rehearsed tools keep to the files of a graph that their script serves. -/
theorem Serves.confined_toolchain (h : s.Serves g) : s.toolchain.Confined g .here where
  compile := by
    intro p a command t t' r ha hwords htool
    obtain ⟨ps, hps, halters⟩ := exists_alters_toolchain htool
    exact ⟨ps, fun q hq ↦ h.mayWrite ha hwords q (hps q hq), halters⟩
  realize := by
    intro p a command t t' r ha hwords htool
    obtain ⟨ps, hps, halters⟩ := exists_alters_toolchain htool
    refine ⟨ps, fun q hq ↦ ?_, halters⟩
    have hproduct := hps q hq
    rw [h.realize _ (Table.mem_of_find? ha) command hwords, List.mem_singleton] at hproduct
    rw [Path.here_join]
    exact hproduct

/-- What a script writes for a compile hangs on the command alone. -/
theorem Serves.repeats_toolchain (h : s.Serves g) (hg : g.Coherent)
    (hs : ∀ q ∈ g.objects.keys, q.IsStraight) : s.toolchain.Repeats g .here := by
  intro p a command ha hwords
  obtain ⟨rfl, hobject⟩ := hg.compileAction p a ha
  have hstraight : (Path.here / a.object.path).IsStraight := by
    rw [Path.here_join]
    exact hs _ (Table.mem_keys_of_find? hobject)
  have hisObject := (hg.object _ _ hobject).2.1
  have hplaces (t : FileTree) :
      ((s.products command).map Prod.fst).Pairwise fun q q' ↦ t.place q ≠ t.place q' := by
    rcases h.compile _ (Table.mem_of_find? ha) command hwords with hp | ⟨listing, hl, hp⟩
    · rw [hp]
      exact List.pairwise_singleton ..
    · rw [hp, List.pairwise_pair]
      have hbeside := hisObject.place_notMem_byproducts t hstraight hstraight
      rw [Path.here_join] at hbeside
      intro heq
      apply hbeside
      exact ObjectRecord.mem_byproducts.mpr ⟨listing, .inr (toOption_eq_some.mp hl), by rwa [Path.here_join]⟩
  refine ⟨(s.products command).map fun f ↦ (f.1, f.2.toUTF8), fun f hf ↦ ?_, fun t t' r htool hr ↦ ?_,
    fun t u hsuccess hadmits ↦ ?_⟩
  · obtain ⟨f', hf', rfl⟩ := List.mem_map.mp hf
    exact h.mayWrite ha hwords _ (List.mem_map_of_mem hf')
  · have hsuccess : (s.toolchain t .here command).2.IsSuccess := htool ▸ hr
    obtain ⟨t₁, hwrite, htree, -⟩ := isSuccess_toolchain (u := t) hsuccess
    obtain rfl : t' = t₁ := by rwa [htool] at htree
    have hnew := hplaces t
    rw [List.pairwise_map] at hnew
    exact gains_writeAll hwrite hnew
  · obtain ⟨-, -, -, hsucceeds⟩ := isSuccess_toolchain (u := u) hsuccess
    rw [List.map_map] at hadmits
    obtain ⟨u', hwrite⟩ := exists_writeAll (s := s) hadmits
    exact hsucceeds u' hwrite

/-- Scripts that write at different times write the same. -/
theorem writeAll_sameContents {u : FileTree} (hc : t.SameContents u) (later : Timestamp)
    (files : List (Path × String)) :
    ({ s with now := later }.writeAll u files).2 = (s.writeAll t files).2 ∧
      (s.writeAll t files).1.SameContents ({ s with now := later }.writeAll u files).1 := by
  induction files generalizing t u with
  | nil => exact ⟨rfl, hc⟩
  | cons file files ih =>
    obtain ⟨p, text⟩ := file
    rw [writeAll, writeAll]
    cases hw : t.write p text.toUTF8 s.now with
    | error e =>
      rw [hc.write_eq_error hw later]
      exact ⟨rfl, hc⟩
    | ok t₁ =>
      obtain ⟨u₁, hw', hc₁⟩ := hc.write hw later
      rw [hw']
      exact ih hc₁

/-- A script is followed at any time alike. -/
theorem agrees_toolchain (s : ToolScript) (later : Timestamp) :
    s.toolchain.Agrees { s with now := later }.toolchain := by
  intro t u project command hc
  obtain ⟨hanswer, hcontents⟩ := writeAll_sameContents (s := s) hc later (s.products command)
  have hproducts : { s with now := later }.products command = s.products command := rfl
  unfold toolchain
  dsimp only
  rw [hproducts]
  split
  · exact ⟨rfl, hc⟩
  · split
    · exact ⟨rfl, hc⟩
    · split
      · exact ⟨rfl, hc⟩
      · cases ht : s.writeAll t (s.products command) with
        | mk t' answer =>
          cases hu : { s with now := later }.writeAll u (s.products command) with
          | mk u' answer' =>
            rw [ht, hu] at hanswer hcontents
            obtain rfl : answer' = answer := hanswer
            cases answer' <;> exact ⟨rfl, hcontents⟩

/-- A script by which commands fail, and the same without the faults. -/
theorem mayFail_toolchain (s : ToolScript) (missing interrupt fail : List String) :
    { s with missing, interrupt, fail }.toolchain.MayFail
      { s with missing := [], interrupt := [], fail := [] }.toolchain := by
  intro t project command
  have hwrite (files : List (Path × String)) (t : FileTree) :
      { s with missing, interrupt, fail }.writeAll t files =
        { s with missing := [], interrupt := [], fail := [] }.writeAll t files := by
    induction files generalizing t with
    | nil => rfl
    | cons file files ih => simp only [writeAll, ih]
  have hproducts : { s with missing, interrupt, fail }.products command =
      { s with missing := [], interrupt := [], fail := [] }.products command := rfl
  unfold toolchain
  dsimp only
  split
  · exact .inr ⟨rfl, fun ⟨_, _, h⟩ ↦ by simp at h⟩
  · split
    · exact .inr ⟨rfl, fun ⟨_, _, h⟩ ↦ by simp at h⟩
    · split
      · exact .inr ⟨rfl, fun ⟨_, _, h⟩ ↦ by simp at h⟩
      · left
        rw [hwrite, hproducts]
        simp

end ToolScript

/-! ### A project to rehearse on -/

namespace Rehearsal

/-- A run that starts in a tree. -/
def start (t : FileTree) : Run := { tree := t }

/-- What a run comes to is its answer and the tree that it leaves. -/
theorem run_eq_ok {α : Type} {x : RunM α} {run : Run} {a : α}
    (h : (x.run.run run).1.toOption = some a) : x.run.run run = (.ok a, (x.run.run run).2) :=
  Prod.ext (toOption_eq_some.mp h) rfl

theorem exists_run_eq_error {α : Type} {x : RunM α} {run : Run}
    (h : (x.run.run run).1.toOption = none) : ∃ f, x.run.run run = (.error f, (x.run.run run).2) := by
  cases hx : (x.run.run run).1 with
  | error f => exact ⟨f, Prod.ext hx rfl⟩
  | ok a => simp [hx, Except.toOption] at h

/-- One program, of one source. -/
def tree : FileTree := .ofFiles (.ofSeconds 100) [
  ("main.ini", "[module]\ntarget=app\nsources=a.c", .ofSeconds 50),
  ("a.c", "", .ofSeconds 50),
  ("a.h", "", .ofSeconds 50)]

/-- The graph of the project. -/
def graph : Graph :=
  (⟨{}, [⟨{ path := .ofString "main.ini", directory := .here, target := "app", sources := ["a.c"] }, []⟩]⟩
    : Blueprint).graph

/-- Tools that find a header in every source. -/
def script : ToolScript where
  defaultListing := some "\x7bout\x7d: \x7bsrc\x7d a.h\n"
  now := .ofSeconds 100

/-- How the project is built. -/
def options : BuildOptions := { tools := script.toolchain }

/-- The first build. -/
def built : Run := ((graph.build options none).run.run (start tree)).2

/-- The graph after the first build, in which the header is known. -/
def builtGraph : Graph := { graph with headers := ⟨[(.ofString "build/a.o", [.ofString "a.h"])]⟩ }

set_option maxRecDepth 10000 in
/-- What can be computed of the first build and of what it starts from and leaves. -/
theorem computed_tree :
    (({} : Project).resolve tree).2.toOption = some ⟨graph, {}⟩ ∧ script.Serves graph ∧
      graph.LaidOut tree .here ∧
      ((graph.build options none).run.run (start tree)).1.toOption =
        some ⟨[.ofString "build/a.o"], [.ofString "app"], []⟩ ∧
      (({} : Project).resolve built.tree).2.toOption = some ⟨builtGraph, {}⟩ :=
  ⟨by decide +kernel, by decide +kernel, by decide +kernel, by decide +kernel, by decide +kernel⟩

theorem resolve_tree : (({} : Project).resolve tree).2 = .ok ⟨graph, {}⟩ :=
  toOption_eq_some.mp computed_tree.1

theorem obeys_graph : options.tools.Obeys graph .here (.ofSeconds 100) :=
  ToolScript.Serves.obeys_toolchain computed_tree.2.1

theorem laidOut_graph : graph.LaidOut tree .here := computed_tree.2.2.1

theorem build_tree : (graph.build options none).run.run (start tree) =
    (.ok ⟨[.ofString "build/a.o"], [.ofString "app"], []⟩, built) :=
  run_eq_ok computed_tree.2.2.2.1

theorem resolve_built : (({} : Project).resolve built.tree).2 = .ok ⟨builtGraph, {}⟩ :=
  toOption_eq_some.mp computed_tree.2.2.2.2

/-! ### A descriptor that is a header -/

/-- A project in which an object is made from the dependency descriptor of another; only the other is
stale. -/
def chainedTree : FileTree := .ofFiles (.ofSeconds 100) [
  ("main.ini", "[module]\ntarget=app\nsources=a.c b.c", .ofSeconds 10),
  ("a.c", "", .ofSeconds 50), ("b.c", "", .ofSeconds 10), ("a.h", "", .ofSeconds 10),
  ("build/a.o", "", .ofSeconds 30), ("build/a.P", "build/a.o: a.c\n", .ofSeconds 20),
  ("build/b.o", "", .ofSeconds 30), ("build/b.P", "build/b.o: b.c build/a.P\n", .ofSeconds 20),
  ("app", "", .ofSeconds 40)]

/-- The modules of the project. -/
def chained : Blueprint where
  settings := {}
  occurrences := [
    ⟨{ path := .ofString "main.ini", directory := .here, target := "app", sources := ["a.c", "b.c"] }, []⟩]

/-- The graph of the project, with these headers. -/
def chainedGraph (headers : List (Path × List Path)) : Graph :=
  { chained.graph with headers := ⟨headers⟩ }

/-- What is known of headers before the build. -/
def chainedBefore : Graph :=
  chainedGraph [(.ofString "build/a.o", []), (.ofString "build/b.o", [.ofString "build/a.P"])]

/-- What is known of headers after the build. -/
def chainedAfter : Graph :=
  chainedGraph [(.ofString "build/a.o", [.ofString "a.h"]),
    (.ofString "build/b.o", [.ofString "build/a.P"])]

/-- The build. -/
def chainedRun : Run := ((chainedBefore.build options none).run.run (start chainedTree)).2

set_option maxRecDepth 10000 in
/-- What can be computed of the build and of what it starts from. No object or target of the project is a
descriptor, a source or a header. -/
theorem computed_chainedTree :
    (({} : Project).resolve chainedTree).2.toOption = some ⟨chainedBefore, {}⟩ ∧
      chainedTree.NoLater (.ofSeconds 100) ∧ script.Serves chainedBefore ∧
      chainedBefore.KeptApart chainedTree .here ∧
      (∀ p ∈ chainedBefore.outputs, p ∉ ({} : Project).descriptors chainedTree ∧
        ∀ x ∈ chainedBefore.objects.values, p ∉ chainedBefore.inputsOf x) ∧
      ((chainedBefore.build options none).run.run (start chainedTree)).1.toOption =
        some ⟨[.ofString "build/a.o"], [.ofString "app"], []⟩ :=
  ⟨by decide +kernel, by decide +kernel, by decide +kernel, by decide +kernel, by decide +kernel,
    by decide +kernel⟩

theorem resolve_chainedTree : (({} : Project).resolve chainedTree).2 = .ok ⟨chainedBefore, {}⟩ :=
  toOption_eq_some.mp computed_chainedTree.1

theorem noLater_chainedTree : chainedTree.NoLater (.ofSeconds 100) := computed_chainedTree.2.1

theorem obeys_chainedBefore : options.tools.Obeys chainedBefore .here (.ofSeconds 100) :=
  ToolScript.Serves.obeys_toolchain computed_chainedTree.2.2.1

theorem keptApart_chainedBefore : chainedBefore.KeptApart chainedTree .here :=
  computed_chainedTree.2.2.2.1

theorem outputs_chainedBefore : ∀ p ∈ chainedBefore.outputs,
    p ∉ ({} : Project).descriptors chainedTree ∧
      ∀ x ∈ chainedBefore.objects.values, p ∉ chainedBefore.inputsOf x :=
  computed_chainedTree.2.2.2.2.1

theorem build_chainedTree : (chainedBefore.build options none).run.run (start chainedTree) =
    (.ok ⟨[.ofString "build/a.o"], [.ofString "app"], []⟩, chainedRun) :=
  run_eq_ok computed_chainedTree.2.2.2.2.2

end Rehearsal

end ModuleBuild
