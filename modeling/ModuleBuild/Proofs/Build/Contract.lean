import ModuleBuild.Build.Script
import ModuleBuild.Proofs.Build.Steps
import ModuleBuild.Proofs.Graph.Coherence

/-!
# What commands may do

The contract between a build graph and the tools that it calls (`Toolchain.Obeys`): a compile that succeeds
writes its object and maybe the listing beside it, and the command of a target that succeeds writes the
target. Everything is written at one time, and nothing else is touched. Tools can be compared as well: what
they do may hang on what files hold alone (`Toolchain.Agrees`), and they may do as others do unless they
fail (`Toolchain.MayFail`).
-/

namespace ModuleBuild

namespace FileTree

/-- The second tree is the first after files have been written at some paths, at a time. -/
structure Written (t t' : FileTree) (now : Timestamp) (ps : List Path) : Prop where
  current : t'.current = t.current
  clock : t'.clock = t.clock
  locate : ∀ p ∈ ps, t.locate p = .ok (t.place p)
  notDirectory : ∀ p ∈ ps, ∀ m, t.entry? (t.place p) ≠ some (.directory m)
  file : ∀ p ∈ ps, ∃ bytes, t'.entry? (t.place p) = some (.file bytes now)
  kept : ∀ l, (∀ p ∈ ps, l ≠ t.place p) → t'.entry? l = t.entry? l

variable {t t' t'' : FileTree} {now : Timestamp} {ps : List Path}

/-- Files can be written at some paths: the ways there are open, and no directory stands there. -/
def Admits (t : FileTree) (ps : List Path) : Prop :=
  ∀ p ∈ ps, t.locate p = .ok (t.place p) ∧ ∀ m, t.entry? (t.place p) ≠ some (.directory m)

/-- Nothing has changed but at some paths at which files could be written. -/
structure Alters (t t' : FileTree) (ps : List Path) : Prop where
  current : t'.current = t.current
  clock : t'.clock = t.clock
  admits : t.Admits ps
  kept : ∀ l, (∀ p ∈ ps, l ≠ t.place p) → t'.entry? l = t.entry? l

theorem Alters.directory (h : t.Alters t' ps) {l : Location} {m : Timestamp}
    (hd : t.entry? l = some (.directory m)) : t'.entry? l = some (.directory m) := by
  rw [h.kept l fun p hp hl ↦ (h.admits p hp).2 m (hl ▸ hd)]
  exact hd

/-- Only what the paths lead to is touched. -/
theorem Alters.touches (h : t.Alters t' ps) : t.Touches t' { l | ∃ p ∈ ps, l = t.place p } ∅ := by
  have hkept : ∀ l, l ∉ { l | ∃ p ∈ ps, l = t.place p } → t'.entry? l = t.entry? l :=
    fun l hl ↦ h.kept l fun p hp hpl ↦ hl ⟨p, hp, hpl⟩
  refine ⟨h.current, h.clock, fun l hl ↦ .inl (hkept l hl), fun l m hd ↦ h.directory hd, fun ht ↦ ⟨?_, ?_⟩⟩
  · rw [h.current]
    exact ht.current.imp fun m hd ↦ h.directory hd
  · intro s l e he
    by_cases hl : ∃ p ∈ ps, s :: l = t.place p
    · obtain ⟨p, hp, hl⟩ := hl
      obtain ⟨hlocate, hfree⟩ := h.admits p hp
      obtain ⟨s', l', m, hplace, hd⟩ := ht.exists_parent_of_locate hlocate hfree
      obtain ⟨rfl, rfl⟩ := List.cons.inj (hl.trans hplace)
      exact ⟨m, h.directory hd⟩
    · rw [hkept _ hl] at he
      exact (ht.parent s l e he).imp fun m hd ↦ h.directory hd

theorem Written.alters (h : t.Written t' now ps) : t.Alters t' ps where
  current := h.current
  clock := h.clock
  admits := fun p hp ↦ ⟨h.locate p hp, h.notDirectory p hp⟩
  kept := h.kept

/-- Writing files is an evolution. -/
theorem Written.evolves (h : t.Written t' now ps) : t.Evolves t' now { l | ∃ p ∈ ps, l = t.place p } ∅ where
  toTouches := h.alters.touches
  stamped := by
    intro l e he
    by_cases hl : ∃ p ∈ ps, l = t.place p
    · obtain ⟨p, hp, rfl⟩ := hl
      obtain ⟨bytes, hfile⟩ := h.file p hp
      exact .inr (.inr (Option.some.inj (he.symm.trans hfile) ▸ rfl))
    · rw [h.kept l fun p hp hpl ↦ hl ⟨p, hp, hpl⟩] at he
      exact .inl he

/-- What has been written is found. -/
theorem Written.stat_eq_ok (h : t.Written t' now ps) {p : Path} (hp : p ∈ ps) :
    ∃ bytes, t'.stat p = .ok (.file bytes now) := by
  have hev := h.evolves
  obtain ⟨bytes, hfile⟩ := h.file p hp
  refine ⟨bytes, FileTree.stat_eq_ok.mpr ?_⟩
  rw [hev.place_eq]
  exact ⟨hev.locate_eq_ok (h.locate p hp), hfile⟩

/-- Directories that are there after files have been written were there. -/
theorem Written.directory_of (h : t.Written t' now ps) {l : Location} {m : Timestamp}
    (hd : t'.entry? l = some (.directory m)) : t.entry? l = some (.directory m) := by
  by_cases hl : ∃ p ∈ ps, l = t.place p
  · obtain ⟨p, hp, rfl⟩ := hl
    obtain ⟨bytes, hfile⟩ := h.file p hp
    simp [hd] at hfile
  · rw [← h.kept l fun p hp hpl ↦ hl ⟨p, hp, hpl⟩]
    exact hd

/-- The second tree is the first after some files have been written, each with its bytes. -/
structure Gains (t t' : FileTree) (files : List (Path × ByteArray)) : Prop where
  current : t'.current = t.current
  clock : t'.clock = t.clock
  admits : t.Admits (files.map Prod.fst)
  file : ∀ f ∈ files, ∃ m, t'.entry? (t.place f.1) = some (.file f.2 m)
  kept : ∀ l, (∀ f ∈ files, l ≠ t.place f.1) → t'.entry? l = t.entry? l

namespace Gains

variable {files : List (Path × ByteArray)}

theorem alters (h : t.Gains t' files) : t.Alters t' (files.map Prod.fst) where
  current := h.current
  clock := h.clock
  admits := h.admits
  kept := fun l hl ↦ h.kept l fun f hf ↦ hl f.1 (List.mem_map_of_mem hf)

/-- Where two trees held the same they do so after the same files have been written. -/
theorem agreeAt {u u' : FileTree} (h : t.Gains t' files) (h' : u.Gains u' files)
    (hcurrent : u.current = t.current) {l : Location} (hl : t.AgreeAt u l) : t'.AgreeAt u' l := by
  have hplace := place_congr hcurrent
  by_cases hmem : ∃ f ∈ files, l = t.place f.1
  · obtain ⟨f, hf, rfl⟩ := hmem
    obtain ⟨m, hfile⟩ := h.file f hf
    obtain ⟨m', hfile'⟩ := h'.file f hf
    rw [hplace] at hfile'
    exact .of_file hfile hfile'
  · have hkept := h.kept l fun f hf heq ↦ hmem ⟨f, hf, heq⟩
    have hkept' := h'.kept l fun f hf heq ↦ hmem ⟨f, hf, heq.trans (hplace f.1)⟩
    rw [AgreeAt, hkept, hkept']
    exact hl

end Gains

end FileTree

/-- The paths at which the compile of an object may write: that of the object and that of the listing beside
it. -/
def ObjectRecord.MayWrite (o : ObjectRecord) (project q : Path) : Prop :=
  q = project / o.path ∨ ∃ listing, o.listing = .ok listing ∧ q = project / listing

namespace ObjectRecord.MayWrite

variable {o : ObjectRecord} {project q : Path}

/-- The file stands in one directory with the object. -/
theorem parent_eq (h : o.MayWrite project q) : q.parent = (project / o.path).parent := by
  rcases h with rfl | ⟨listing, hl, rfl⟩
  · rfl
  · exact parent_sibling hl

/-- The file has a name. -/
theorem segments_ne_nil (h : o.MayWrite project q) (ho : o.IsObject) : q.segments ≠ [] := by
  rcases h with rfl | ⟨listing, hl, rfl⟩
  · obtain ⟨s, hname, -⟩ := ho.exists_name
    exact Path.segments_join_ne_nil (Path.segments_ne_nil_of_name? hname)
  · obtain ⟨s, -, hname, -⟩ := sibling_eq_ok hl
    exact Path.segments_join_ne_nil (Path.segments_ne_nil_of_name? hname)

end ObjectRecord.MayWrite

/-- What tools do for a graph when they succeed. Compiles write their object and maybe the listing beside
it, the commands of targets write the target. -/
structure Toolchain.Obeys (tools : Toolchain) (g : Graph) (project : Path) (now : Timestamp) :
    Prop where
  compile : ∀ p a command t t' r, g.compileActions.find? p = some a →
    a.command.words? = some command → tools t project command = (t', r) → r.IsSuccess →
      t.Written t' now [project / a.object.path] ∨ ∃ listing, a.object.listing = .ok listing ∧
        t.Written t' now [project / a.object.path, project / listing]
  realize : ∀ p a command t t' r, g.targetActions.find? p = some a →
    a.command.words? = some command → tools t project command = (t', r) → r.IsSuccess →
      t.Written t' now [project / a.target]

/-- A compile that succeeds writes its object, and nothing else than it may. -/
theorem Toolchain.Obeys.exists_written {tools : Toolchain} {g : Graph} {project p : Path} {now : Timestamp}
    (h : tools.Obeys g project now) {a : CompileAction} {command : List String} {t t' : FileTree} {r : Response}
    (ha : g.compileActions.find? p = some a) (hw : a.command.words? = some command)
    (htool : tools t project command = (t', r)) (hr : r.IsSuccess) :
    ∃ qs, t.Written t' now qs ∧ project / a.object.path ∈ qs ∧ ∀ q ∈ qs, a.object.MayWrite project q := by
  rcases h.compile p a command t t' r ha hw htool hr with hwritten | ⟨listing, hl, hwritten⟩
  · exact ⟨_, hwritten, List.mem_cons_self, fun q hq ↦ .inl (List.mem_singleton.mp hq)⟩
  · refine ⟨_, hwritten, List.mem_cons_self, fun q hq ↦ ?_⟩
    rcases List.mem_cons.mp hq with rfl | hq
    · exact .inl rfl
    · exact .inr ⟨listing, hl, List.mem_singleton.mp hq⟩

/-- What tools do for a graph when they fail. Compiles leave no object, though maybe the listing beside it; the
commands of targets may leave the target. -/
structure Toolchain.Forgoes (tools : Toolchain) (g : Graph) (project : Path) (now : Timestamp) :
    Prop where
  compile : ∀ p a command t t' r, g.compileActions.find? p = some a →
    a.command.words? = some command → tools t project command = (t', r) → ¬r.IsSuccess →
      t' = t ∨ ∃ listing, a.object.listing = .ok listing ∧ t.Written t' now [project / listing]
  realize : ∀ p a command t t' r, g.targetActions.find? p = some a →
    a.command.words? = some command → tools t project command = (t', r) → ¬r.IsSuccess →
      t' = t ∨ t.Written t' now [project / a.target]

/-- Tools whose compiles go by their commands alone: each command of a compile stands for some files, of which
each is the object or the listing beside it. Where it succeeds it writes these, and where they can be written
it succeeds, if it ever does. -/
def Toolchain.Repeats (tools : Toolchain) (g : Graph) (project : Path) : Prop :=
  ∀ p a command, g.compileActions.find? p = some a → a.command.words? = some command →
    ∃ files : List (Path × ByteArray),
      (∀ f ∈ files, a.object.MayWrite project f.1) ∧
      (∀ t t' r, tools t project command = (t', r) → r.IsSuccess → t.Gains t' files) ∧
      ∀ t u, (tools t project command).2.IsSuccess → u.Admits (files.map Prod.fst) →
        (tools u project command).2.IsSuccess

/-- Tools that keep to the files of a graph, however their commands end: compiles change at most their object and the
listing beside it, the commands of targets at most the target. -/
structure Toolchain.Confined (tools : Toolchain) (g : Graph) (project : Path) : Prop where
  compile : ∀ p a command t t' r, g.compileActions.find? p = some a → a.command.words? = some command →
    tools t project command = (t', r) →
      ∃ ps : List Path, (∀ q ∈ ps, a.object.MayWrite project q) ∧ t.Alters t' ps
  realize : ∀ p a command t t' r, g.targetActions.find? p = some a → a.command.words? = some command →
    tools t project command = (t', r) → ∃ ps : List Path, (∀ q ∈ ps, q = project / a.target) ∧ t.Alters t' ps

/-- Tools that go by what trees hold: where the contents are the same, a command ends alike, and leaves the
same contents. -/
def Toolchain.Agrees (tools tools' : Toolchain) : Prop :=
  ∀ t u directory command, t.SameContents u →
    (tools' u directory command).2 = (tools t directory command).2 ∧
      (tools t directory command).1.SameContents (tools' u directory command).1

/-- Tools that do what others do, unless they fail; then they leave everything as it was. -/
def Toolchain.MayFail (faulty tools : Toolchain) : Prop :=
  ∀ t directory command, faulty t directory command = tools t directory command ∨
    (faulty t directory command).1 = t ∧ ¬(faulty t directory command).2.IsSuccess

end ModuleBuild
