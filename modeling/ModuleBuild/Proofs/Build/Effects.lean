import ModuleBuild.Proofs.Build.Contract

/-!
# What the steps of a build do to the file tree

With tools that keep their contract a compile writes the object and the files beside it, a target's step
writes the target, and both make directories above what they write (`evolves_compiles`,
`evolves_realizes`). Runs of steps write what their steps write, and leave what they have made as it is
(`evolves_compilesAll`).
-/

namespace ModuleBuild.Graph

open FileTree

variable {g : Graph} {o : BuildOptions} {now : Timestamp} {t t' : FileTree}

/-- The directories above a location. -/
def above (l : Location) : Set Location := upTo l.tail

/-- Seeing to the directory of an output makes directories above it. -/
theorem evolves_ensureParent (ht : t.WellFormed) {p : Path} (hs : p.IsStraight) (hp : p.segments ≠ [])
    (h : t.ensureDirectory p.parent = (t', .ok ())) :
    t.Evolves t' now ∅ (above (t.place p)) ∧ ∃ m, t'.stat p.parent = .ok (.directory m) := by
  have hs' : p.parent.IsStraight := fun s h ↦ hs s (List.dropLast_subset _ h)
  rw [above, ← place_parent t hs hp]
  exact evolves_ensureDirectory ht now hs' h

/-- Also where it fails, seeing to the directory of an output makes none but directories above it. -/
theorem evolves_ensureParent_fst (ht : t.WellFormed) (now : Timestamp) {p : Path} (hs : p.IsStraight) :
    t.Evolves (t.ensureDirectory p.parent).1 now ∅ (above (t.place p)) := by
  by_cases hp : p.segments = []
  · -- the path leads to the current directory or the root, which is there
    obtain ⟨a, ss⟩ := p
    obtain rfl : ss = [] := hp
    have hn : (⟨a, []⟩ : Path).IsNameable := by
      cases a <;> exact ⟨by decide +kernel, by decide +kernel, by simp⟩
    obtain ⟨m, hm⟩ : ∃ m, t.entry? (t.place ⟨a, []⟩) = some (.directory m) := by
      rw [place_of_isStraight t hs]
      cases (⟨a, []⟩ : Path).isAbsolute with
      | true => exact ⟨_, entry?_nil t⟩
      | false => exact ht.current
    have hself : (⟨a, []⟩ : Path).parent = ⟨a, []⟩ := rfl
    rw [hself, ensureDirectory_of_directory ((ht.stat_eq_ok hs).mpr ⟨hn, hm⟩)]
    exact .refl ..
  · have hs' : p.parent.IsStraight := fun s h ↦ hs s (List.dropLast_subset _ h)
    rw [above, ← place_parent t hs hp]
    exact (evolves_ensureDirectory_fst ht now _).1.mono (Set.Subset.refl _) (t.onWay_subset hs')

/-- The locations that a compile writes: the object and the files beside it. -/
def footprint (t : FileTree) (project : Path) (o : ObjectRecord) : Set Location :=
  { l | l = t.place (project / o.path) ∨ l ∈ o.byproducts t project }

theorem byproducts_eq (h : t'.current = t.current) (project : Path) (o : ObjectRecord) :
    o.byproducts t' project = o.byproducts t project := by
  unfold ObjectRecord.byproducts FileTree.place
  rw [h]

theorem footprint_eq (h : t'.current = t.current) (project : Path) (o : ObjectRecord) :
    footprint t' project o = footprint t project o := by
  unfold footprint FileTree.place
  rw [h, byproducts_eq h]

/-- The locations that a compiler writes: the object and the listing. -/
def writings (t : FileTree) (project : Path) (o : ObjectRecord) : Set Location :=
  { l | l = t.place (project / o.path) ∨ ∃ q, o.listing = .ok q ∧ l = t.place (project / q) }

theorem writings_subset (t : FileTree) (project : Path) (o : ObjectRecord) :
    writings t project o ⊆ footprint t project o := by
  rintro l (rfl | ⟨q, hq, rfl⟩)
  · exact .inl rfl
  · exact .inr (ObjectRecord.mem_byproducts.mpr ⟨q, .inr hq, rfl⟩)

theorem mem_writings {r : ObjectRecord} {project q : Path} (h : r.MayWrite project q) (t : FileTree) :
    t.place q ∈ writings t project r := by
  rcases h with rfl | ⟨listing, hl, rfl⟩
  · exact .inl rfl
  · exact .inr ⟨listing, hl, rfl⟩

/-- A compiler writes the object and maybe the listing. -/
theorem evolves_compiler (hg : g.Coherent) (htools : o.tools.Obeys g o.project now)
    {p : Path} {a : CompileAction} {command : List String} {r : Response}
    (ha : g.compileActions.find? p = some a)
    (hw : a.command.words? = some command) (htool : o.tools t o.project command = (t', r))
    (hr : r.IsSuccess) :
    t.Evolves t' now (writings t o.project a.object) ∅ ∧
      ∃ bytes, t'.stat (o.project / p) = .ok (.file bytes now) := by
  obtain ⟨hpath, hobject⟩ := hg.compileAction p a ha
  subst hpath
  obtain ⟨qs, hwritten, hmem, hqs⟩ := htools.exists_written ha hw htool hr
  refine ⟨hwritten.evolves.mono ?_ (Set.Subset.refl _), hwritten.stat_eq_ok hmem⟩
  rintro l ⟨q, hq, rfl⟩
  exact mem_writings (hqs q hq) t

/-- Finishing a compile writes the object and the files beside it. -/
theorem evolves_finishes (hg : g.Coherent) (htools : o.tools.Obeys g o.project now)
    (ht : t.WellFormed) {p : Path} {a : CompileAction} {command : List String}
    (ha : g.compileActions.find? p = some a) (hs : (o.project / p).IsStraight)
    (h : Finishes o a t t' command) :
    t.Evolves t' now (footprint t o.project a.object) ∅ ∧
      ∃ bytes, t'.stat (o.project / p) = .ok (.file bytes now) := by
  obtain ⟨hpath, hobject⟩ := hg.compileAction p a ha
  obtain ⟨-, hisObject, -⟩ := hg.object p a.object hobject
  obtain ⟨t₁, r, d?, hw, htool, hr, hfinalize⟩ := h
  obtain ⟨hev, bytes, hstat⟩ := evolves_compiler hg htools ha hw htool hr
  subst hpath
  obtain ⟨hev', -⟩ := Listing.evolves_finalize (hev.wellFormed ht) hs hfinalize
  have hbeside : t₁.place (o.project / a.object.path) ∉ a.object.byproducts t₁ o.project :=
    hisObject.place_notMem_byproducts t₁ hs hs
  refine ⟨(hev.mono (writings_subset ..) (Set.Subset.refl _)).trans
    (hev'.mono ?_ (Set.Subset.refl _)), bytes, hev'.stat_eq_ok hbeside hstat⟩
  intro l hl
  exact .inr (byproducts_eq hev.current o.project a.object ▸ hl)

/-- Compiling writes the object and the files beside it, and makes directories above. -/
theorem evolves_compiles (hg : g.Coherent) (htools : o.tools.Obeys g o.project now)
    (ht : t.WellFormed) {p : Path} {a : CompileAction} {command : List String}
    (ha : g.compileActions.find? p = some a) (hs : (o.project / p).IsStraight)
    (h : Compiles o a t t' command) :
    t.Evolves t' now (footprint t o.project a.object) (above (t.place (o.project / p))) ∧
      ∃ bytes, t'.stat (o.project / p) = .ok (.file bytes now) := by
  obtain ⟨t₁, hparent, hfinishes⟩ := h
  obtain ⟨hpath, hobject⟩ := hg.compileAction p a ha
  obtain ⟨-, hisObject, -⟩ := hg.object p a.object hobject
  obtain ⟨s, hname, -⟩ := hisObject.exists_name
  have hjoin := Path.segments_join_ne_nil (p := o.project) (Path.segments_ne_nil_of_name? hname)
  rw [hpath] at hparent hjoin
  obtain ⟨hev, -⟩ := evolves_ensureParent ht hs hjoin hparent
  obtain ⟨hev', hstat⟩ := evolves_finishes hg htools (hev.wellFormed ht) ha hs hfinishes
  rw [footprint_eq hev.current] at hev'
  exact ⟨(hev.mono (Set.empty_subset _) (Set.Subset.refl _)).trans
    (hev'.mono (Set.Subset.refl _) (Set.empty_subset _)), hstat⟩

/-- The command of a target writes the target. -/
theorem written_makes (hg : g.Coherent) (htools : o.tools.Obeys g o.project now) {p : Path}
    {a : TargetAction} {command : List String} (ha : g.targetActions.find? p = some a)
    (h : Makes o a t t' command) : t.Written t' now [o.project / p] := by
  obtain ⟨r, hw, htool, hr⟩ := h
  have hwritten := htools.realize p a command t t' r ha hw htool hr
  rwa [(hg.targetAction p a ha).1] at hwritten

/-- The path of a file that is written in a directory that was seen to has a name in it. -/
theorem segments_ne_nil_of_written {t₁ : FileTree} (ht : t.WellFormed) {p : Path} (hs : p.IsStraight)
    (hparent : t.ensureDirectory p.parent = (t₁, .ok ())) (hw : t₁.Written t' now [p]) :
    p.segments ≠ [] := by
  intro hnil
  have hself : p.parent = p := by rw [Path.parent, hnil, List.dropLast_nil, ← hnil]
  rw [hself] at hparent
  obtain ⟨-, m, hdir⟩ := evolves_ensureDirectory ht now hs hparent
  exact hw.notDirectory _ List.mem_cons_self m (FileTree.stat_eq_ok.mp hdir).2

/-- Making a target writes it, and makes directories above. -/
theorem evolves_realizes (hg : g.Coherent) (htools : o.tools.Obeys g o.project now)
    (ht : t.WellFormed) {p : Path} {a : TargetAction} {command : List String}
    (ha : g.targetActions.find? p = some a) (hs : (o.project / p).IsStraight)
    (h : Realizes o a t t' command) :
    t.Evolves t' now {t.place (o.project / p)} (above (t.place (o.project / p))) ∧
      ∃ bytes, t'.stat (o.project / p) = .ok (.file bytes now) := by
  obtain ⟨t₁, hparent, hmakes⟩ := h
  have hwritten := written_makes hg htools ha hmakes
  rw [(hg.targetAction p a ha).1] at hparent
  have hsegments := segments_ne_nil_of_written ht hs hparent hwritten
  obtain ⟨hev, -⟩ := evolves_ensureParent ht hs hsegments hparent
  have hev' := hwritten.evolves
  refine ⟨(hev.mono (Set.empty_subset _) (Set.Subset.refl _)).trans
    (hev'.mono ?_ (Set.empty_subset _)), hwritten.stat_eq_ok List.mem_cons_self⟩
  rintro l ⟨q, hq, rfl⟩
  rw [List.mem_singleton.mp hq, hev.place_eq]
  rfl

/-! ### Runs of steps -/

/-- The locations that compiles write. -/
def footprints (t : FileTree) (project : Path) (as : List CompileAction) : Set Location :=
  { l | ∃ a ∈ as, l ∈ footprint t project a.object }

theorem footprints_mono {as as' : List CompileAction} (h : as ⊆ as') (t : FileTree) (project : Path) :
    footprints t project as ⊆ footprints t project as' := by
  rintro l ⟨a, ha, hl⟩
  exact ⟨a, h ha, hl⟩

/-- The directories above objects that are compiled. -/
def aboveObjects (t : FileTree) (project : Path) (as : List CompileAction) : Set Location :=
  { l | ∃ a ∈ as, l ∈ above (t.place (project / a.object.path)) }

/-- Compiling objects writes what the compiles write. -/
theorem evolves_compilesAll (hg : g.Coherent) (htools : o.tools.Obeys g o.project now)
    (ht : t.WellFormed) {as : List CompileAction} {commands : List (List String)}
    (ha : ∀ a ∈ as, g.compileActions.find? a.object.path = some a)
    (hs : ∀ a ∈ as, (o.project / a.object.path).IsStraight)
    (h : CompilesAll o as t t' commands) :
    t.Evolves t' now (footprints t o.project as) (aboveObjects t o.project as) := by
  induction h with
  | nil => exact .refl ..
  | cons first rest ih =>
    next a as t t₁ t' command commands =>
    have hev := (evolves_compiles hg htools ht (ha a List.mem_cons_self) (hs a List.mem_cons_self)
      first).1
    have hev' := ih (hev.wellFormed ht) (fun a' ha' ↦ ha a' (List.mem_cons_of_mem _ ha'))
      fun a' ha' ↦ hs a' (List.mem_cons_of_mem _ ha')
    refine (hev.mono ?_ ?_).trans (hev'.mono ?_ ?_)
    · exact fun l hl ↦ ⟨a, List.mem_cons_self, hl⟩
    · exact fun l hl ↦ ⟨a, List.mem_cons_self, hl⟩
    · rintro l ⟨a', ha', hl⟩
      exact ⟨a', List.mem_cons_of_mem _ ha', footprint_eq hev.current _ _ ▸ hl⟩
    · rintro l ⟨a', ha', hl⟩
      exact ⟨a', List.mem_cons_of_mem _ ha', hev.place_eq _ ▸ hl⟩

end ModuleBuild.Graph
