import ModuleBuild.Proofs.Build.Products
import ModuleBuild.Proofs.Build.Progress
import ModuleBuild.Proofs.FileTree.Growth
import ModuleBuild.Proofs.Listing.Finishing

/-!
# Steps that cannot but succeed

Where all products of a graph can be made (`Creatable`), and tools make what they are asked for
(`Toolchain.Delivers`), an object can be compiled and a target made (`exists_compiles`, `exists_realizes`). The tree
grows by that (`Advances`), and the other products can still be made (`Advances.creatable`), so that objects can be
compiled one after another (`exists_compilesAll`). All of this can be told of some of the products alone, provided that
no file beside an object stands on the way to them (`Aside`).
-/

namespace ModuleBuild

namespace FileTree

variable {t u : FileTree} {now : Timestamp} {ps : List Path}

/-- The second tree is the first after files have been written at some paths, whenever. -/
structure Fills (t u : FileTree) (ps : List Path) : Prop extends t.Alters u ps where
  file : ∀ p ∈ ps, ∃ bytes m, u.entry? (t.place p) = some (.file bytes m)

theorem Written.fills (h : t.Written u now ps) : t.Fills u ps where
  toAlters := h.alters
  file := fun p hp ↦ (h.file p hp).imp fun _ hfile ↦ ⟨now, hfile⟩

/-- A tree grows by files that are written. -/
theorem Fills.grows (h : t.Fills u ps) : t.Grows u { l | ∃ p ∈ ps, l = t.place p } ∅ ∅ where
  toTouches := h.touches.mono Set.subset_union_left (Set.Subset.refl _)
  directory_of := by
    intro l m hd
    by_cases hl : ∃ p ∈ ps, l = t.place p
    · obtain ⟨p, hp, rfl⟩ := hl
      obtain ⟨bytes, m', hfile⟩ := h.file p hp
      simp [hd] at hfile
    · exact .inl (h.kept l (fun p hp heq ↦ hl ⟨p, hp, heq⟩) ▸ hd)
  stays := by
    intro l _ he
    by_cases hl : ∃ p ∈ ps, l = t.place p
    · obtain ⟨p, hp, rfl⟩ := hl
      obtain ⟨bytes, m, hfile⟩ := h.file p hp
      simp [hfile]
    · rwa [h.kept l fun p hp heq ↦ hl ⟨p, hp, heq⟩]

end FileTree

namespace Listing

open FileTree

variable {t t' : FileTree} {project listing descriptor : Path} {x : ObjectRecord} {d? : Option Path}

/-- What stands somewhere when an object has been finished was there, or it is a text that has been written. -/
theorem entry?_of_finalize (h : finalize t project x = (t', .ok d?)) {l : Location} {e : Entry}
    (he : t'.entry? l = some e) : t.entry? l = some e ∨ ∃ text : String, e = .file text.toUTF8 t.clock := by
  obtain ⟨q, -, ⟨-, rfl, -⟩ | ⟨-, d, text, t₁, -, -, hwrite, hremove, -⟩⟩ := finalize_eq_ok.mp h
  · exact .inl he
  · obtain ⟨l₁, -, -, rfl⟩ := write_eq_ok.mp hwrite
    obtain ⟨l₂, bytes, m, -, -, rfl⟩ := remove_eq_ok.mp hremove
    rw [entry?_erase] at he
    split at he
    · cases he
    · rw [entry?_put] at he
      split at he
      · exact .inr ⟨_, (Option.some.inj he).symm⟩
      · exact .inl he

/-- A tree grows when an object is finished; only the files beside it may be cleared. -/
theorem grows_finalize (ht : t.WellFormed) (h : finalize t project x = (t', .ok d?)) :
    t.Grows t' ∅ { l | l ∈ x.byproducts t project } ∅ where
  toTouches := by
    have hev : t.Evolves t' t.clock _ ∅ := evolves_beside ht h
    exact hev.toTouches.mono Set.subset_union_right (Set.Subset.refl _)
  directory_of := by
    intro l m hd
    rcases entry?_of_finalize h hd with hd | ⟨text, htext⟩
    · exact .inl hd
    · cases htext
  stays := by
    have hev : t.Evolves t' t.clock _ ∅ := evolves_beside ht h
    intro l hl he
    rwa [hev.entry?_eq hl (by simp)]

/-- An object can be finished if its listing is a text, where there is one, and its descriptor can be written. -/
theorem exists_finalize (hl : x.listing = .ok listing) (hd : x.dependencies = .ok descriptor)
    (hlisting : t.locate (project / listing) = .ok (t.place (project / listing)))
    (hfree : ∀ m, t.entry? (t.place (project / listing)) ≠ some (.directory m))
    (hfree' : ∀ m, t.entry? (t.place (project / descriptor)) ≠ some (.directory m))
    (htext : ∀ bytes m, t.entry? (t.place (project / listing)) = some (.file bytes m) →
      ∃ text, Text.Utf8.readText bytes = .ok text) :
    ∃ t' d?, finalize t project x = (t', .ok d?) := by
  cases he : t.entry? (t.place (project / listing)) with
  | none =>
    have hstat : t.stat (project / listing) = .error .notFound := by rw [stat, hlisting, ok_bind, he]
    refine ⟨t, none, finalize_eq_ok.mpr ⟨listing, hl, .inl ⟨?_, rfl, rfl⟩⟩⟩
    rw [pathExists, probe, hstat]
    rfl
  | some e =>
    cases e with
    | directory m => exact absurd he (hfree m)
    | file bytes m =>
      have hstat := stat_eq_ok.mpr ⟨hlisting, he⟩
      obtain ⟨text, htext⟩ := htext bytes m he
      obtain ⟨l', hdescriptor, hne⟩ := locate_descriptor hl hd hlisting
      obtain rfl := eq_place_of_locate hdescriptor
      obtain ⟨t₁, t', hwrite, hremove, -⟩ :=
        write_remove hlisting hdescriptor hne he hfree' (descriptorText text).toUTF8 t.clock
      have hread : readText t (project / listing) = .ok text := by
        rw [readText, read_eq_ok.mpr ⟨m, hstat⟩, mapError_ok, ok_bind, htext, mapError_ok]
      refine ⟨t', _, finalize_eq_ok.mpr ⟨listing, hl, .inr ⟨?_, descriptor, text, t₁, hread, hd, hwrite, hremove, rfl⟩⟩⟩
      rw [pathExists, probe, hstat]
      rfl

end Listing

/-- Tools that make what the commands of a graph are for: each command names one program, it succeeds where its outputs
can be written, and then it has written these. A compile may leave the listing beside its object, which is a text. -/
structure Toolchain.Delivers (tools : Toolchain) (g : Graph) (project : Path) : Prop where
  compile : ∀ p a, g.compileActions.find? p = some a → ∃ command, a.command.words? = some command ∧
    ∀ t listing, a.object.listing = .ok listing → t.Admits [project / a.object.path, project / listing] →
      (tools t project command).2.IsSuccess
  compiled : ∀ p a command t t' r, g.compileActions.find? p = some a → a.command.words? = some command →
    tools t project command = (t', r) → r.IsSuccess →
      ∃ qs, t.Fills t' qs ∧ project / a.object.path ∈ qs ∧ ∀ q ∈ qs, a.object.MayWrite project q
  listing : ∀ p a command t t' r listing bytes m, g.compileActions.find? p = some a →
    a.command.words? = some command → tools t project command = (t', r) → r.IsSuccess →
      a.object.listing = .ok listing → t'.entry? (t.place (project / listing)) = some (.file bytes m) →
        t.entry? (t.place (project / listing)) = some (.file bytes m) ∨ ∃ text, Text.Utf8.readText bytes = .ok text
  realize : ∀ p a, g.targetActions.find? p = some a → ∃ command, a.command.words? = some command ∧
    ∀ t, t.Admits [project / a.target] → (tools t project command).2.IsSuccess
  realized : ∀ p a command t t' r, g.targetActions.find? p = some a → a.command.words? = some command →
    tools t project command = (t', r) → r.IsSuccess → t.Fills t' [project / a.target]

namespace ObjectRecord

/-- The object and the files beside it are among some paths. -/
def FilesIn (x : ObjectRecord) (ps : List Path) : Prop :=
  x.path ∈ ps ∧ ∀ q, x.dependencies = .ok q ∨ x.listing = .ok q → q ∈ ps

/-- The listing of the object is a text, if there is one. -/
def ListsText (x : ObjectRecord) (t : FileTree) (project : Path) : Prop :=
  ∀ q, x.listing = .ok q → ∀ bytes m,
    t.entry? (t.place (project / q)) = some (.file bytes m) → ∃ text, Text.Utf8.readText bytes = .ok text

end ObjectRecord

namespace Graph

open FileTree

/-- All products of a graph can be made in a tree: nothing bars the way to them, none of them stands on the way to
another one, and no directory stands in their place. -/
structure Creatable (t : FileTree) (project : Path) (ps : List Path) : Prop where
  wellFormed : t.WellFormed
  opens : ∀ q ∈ ps, t.Opens (project / q)
  isFree : ∀ q ∈ ps, ∀ m, t.entry? (t.place (project / q)) ≠ some (.directory m)
  apart : ∀ q ∈ ps, ∀ q' ∈ ps, t.place (project / q) ∉ above (t.place (project / q'))

/-- The listings of all objects are texts, where there are any. -/
def ListsTexts (g : Graph) (t : FileTree) (project : Path) : Prop :=
  ∀ x ∈ g.objects.values, ∀ q, x.listing = .ok q → ∀ bytes m,
    t.entry? (t.place (project / q)) = some (.file bytes m) → ∃ text, Text.Utf8.readText bytes = .ok text

/-- The locations of the files beside objects. -/
def beside (g : Graph) (t : FileTree) (project : Path) : Set Location :=
  { l | ∃ x ∈ g.objects.values, l ∈ x.byproducts t project }

/-- No file beside an object stands on the way to some paths. -/
def Aside (g : Graph) (t : FileTree) (project : Path) (ps : List Path) : Prop :=
  ∀ q ∈ ps, ∀ l ∈ g.beside t project, l ∉ above (t.place (project / q))

/-- The directories above paths of the project. -/
def aboveAll (t : FileTree) (project : Path) (ps : List Path) : Set Location :=
  { l | ∃ p ∈ ps, l ∈ above (t.place (project / p)) }

/-- A tree has grown by work on some outputs. -/
def Advances (g : Graph) (project : Path) (rs : List Path) (t u : FileTree) : Prop :=
  t.Grows u (places t project rs) (g.beside t project) (aboveAll t project rs)

variable {g : Graph} {o : BuildOptions} {project : Path} {t u v : FileTree} {ps rs rs' : List Path}
  {p q : Path} {x : ObjectRecord}

namespace Advances

theorem refl (g : Graph) (project : Path) (rs : List Path) (t : FileTree) : g.Advances project rs t t := Grows.refl ..

theorem mono (h : g.Advances project rs t u) (hrs : rs ⊆ rs') : g.Advances project rs' t u := by
  refine Grows.mono h (Set.union_subset_union_left _ ?_) (Set.Subset.refl _) ?_
  · exact fun l ⟨q, hq, hl⟩ ↦ ⟨q, hrs hq, hl⟩
  · exact fun l ⟨q, hq, hl⟩ ↦ ⟨q, hrs hq, hl⟩

theorem beside_eq (h : g.Advances project rs t u) : g.beside u project = g.beside t project := by
  simp only [beside, byproducts_eq h.current project]

theorem trans (h : g.Advances project rs t u) (h' : g.Advances project rs u v) : g.Advances project rs t v := by
  have hplace := h.place_eq
  have hbeside := h.beside_eq
  refine Grows.trans h ?_
  simpa only [Advances, places, aboveAll, hplace, hbeside] using h'

/-- Seeing to the directory of an output is work on it. -/
theorem of_ensureParent (hq : q ∈ rs) (h : t.Grows u ∅ ∅ (above (t.place (project / q)))) : g.Advances project rs t u :=
  h.mono (by simp) (Set.empty_subset _) fun _ hl ↦ ⟨q, hq, hl⟩

/-- Writing outputs, or files beside objects, is work on these outputs. -/
theorem of_fills {qs : List Path} (h : t.Fills u qs)
    (hqs : ∀ q ∈ qs, (∃ r ∈ rs, q = project / r) ∨ t.place q ∈ g.beside t project) : g.Advances project rs t u := by
  refine h.grows.mono ?_ (Set.empty_subset _) (Set.empty_subset _)
  rw [Set.union_empty]
  rintro l ⟨q, hq, rfl⟩
  exact (hqs q hq).imp (fun ⟨r, hr, heq⟩ ↦ ⟨r, hr, by rw [heq]⟩) id

/-- Finishing an object is work on whatever outputs. -/
theorem of_finalize (ht : t.WellFormed) (hx : x ∈ g.objects.values) {d? : Option Path}
    (h : Listing.finalize t project x = (u, .ok d?)) (rs : List Path) : g.Advances project rs t u := by
  have hbeside : { l | l ∈ x.byproducts t project } ⊆ g.beside t project := fun l hl ↦ ⟨x, hx, hl⟩
  refine (Listing.grows_finalize ht h).mono ?_ hbeside (Set.empty_subset _)
  rw [Set.empty_union]
  exact hbeside.trans Set.subset_union_right

end Advances

/-! ### Work that has been done -/

section

variable (hg : g.Coherent) (hdelivers : o.tools.Delivers g o.project)

include hg hdelivers

/-- Running a compiler is work on its object. -/
theorem Advances.of_compiler {a : CompileAction} {command : List String} {r : Response}
    (ha : g.compileActions.find? a.object.path = some a) (hwords : a.command.words? = some command)
    (htool : o.tools t o.project command = (u, r)) (hr : r.IsSuccess) :
    g.Advances o.project [a.object.path] t u := by
  obtain ⟨qs, hfills, -, hqs⟩ := hdelivers.compiled _ _ _ _ _ _ ha hwords htool hr
  refine .of_fills hfills fun q hq ↦ ?_
  rcases hqs q hq with rfl | ⟨l, hl, rfl⟩
  · exact .inl ⟨_, List.mem_cons_self, rfl⟩
  · have hx := mem_values_of_object (hg.compileAction _ a ha).2
    exact .inr ⟨_, hx, ObjectRecord.mem_byproducts.mpr ⟨l, .inr hl, rfl⟩⟩

/-- A compile is work on its object. -/
theorem Advances.of_compiles (ht : t.WellFormed) {a : CompileAction} {command : List String}
    (ha : g.compileActions.find? a.object.path = some a) (hs : (o.project / a.object.path).IsStraight)
    (h : Compiles o a t u command) : g.Advances o.project [a.object.path] t u := by
  obtain ⟨t₁, hparent, t₂, r, d?, hwords, htool, hr, hfinalize⟩ := h
  have hgrows : t.Grows t₁ ∅ ∅ _ := congrArg Prod.fst hparent ▸ (evolves_ensureParent_fst ht t.clock hs).toTouches.grows
  have hcompiler := Advances.of_compiler hg hdelivers ha hwords htool hr
  have hx := mem_values_of_object (hg.compileAction _ a ha).2
  have ht₂ := hcompiler.wellFormed (hgrows.wellFormed ht)
  exact (Advances.of_ensureParent List.mem_cons_self hgrows).trans (hcompiler.trans (.of_finalize ht₂ hx hfinalize _))

/-- Compiles are work on their objects. -/
theorem Advances.of_compilesAll (ht : t.WellFormed) {as : List CompileAction} {commands : List (List String)}
    (ha : ∀ a ∈ as, g.compileActions.find? a.object.path = some a)
    (hs : ∀ a ∈ as, (o.project / a.object.path).IsStraight) (h : CompilesAll o as t u commands) :
    g.Advances o.project (as.map (·.object.path)) t u := by
  induction h with
  | nil => exact .refl ..
  | cons first rest ih =>
    have hfirst := Advances.of_compiles hg hdelivers ht (ha _ List.mem_cons_self) (hs _ List.mem_cons_self) first
    have hrest := ih (hfirst.wellFormed ht) (fun a ha' ↦ ha a (List.mem_cons_of_mem _ ha'))
      fun a ha' ↦ hs a (List.mem_cons_of_mem _ ha')
    rw [List.map_cons]
    exact (hfirst.mono (by simp)).trans (hrest.mono (List.subset_cons_self ..))

/-- Making a target is work on it. -/
theorem Advances.of_realizes (ht : t.WellFormed) {a : TargetAction} {command : List String}
    (ha : g.targetActions.find? p = some a) (hs : (o.project / p).IsStraight) (h : Realizes o a t u command) :
    g.Advances o.project [p] t u := by
  obtain ⟨rfl, -⟩ := hg.targetAction p a ha
  obtain ⟨t₁, hparent, r, hwords, htool, hr⟩ := h
  have hgrows : t.Grows t₁ ∅ ∅ _ := congrArg Prod.fst hparent ▸ (evolves_ensureParent_fst ht t.clock hs).toTouches.grows
  have hfills := hdelivers.realized _ a command t₁ u r ha hwords htool hr
  exact (Advances.of_ensureParent List.mem_cons_self hgrows).trans
    (.of_fills hfills fun q hq ↦ .inl ⟨_, List.mem_cons_self, List.mem_singleton.mp hq⟩)

/-- Going through targets is work on those that are made. -/
theorem Advances.of_realizesAll (ht : t.WellFormed) {result result' : BuildResult} {todo : List Path}
    {commands : List (List String)} (hs : ∀ p ∈ todo, (o.project / p).IsStraight)
    (h : RealizesAll g o result todo t result' u commands) :
    result.realized ⊆ result'.realized ∧ g.Advances o.project result'.realized t u := by
  induction h with
  | done => exact ⟨List.Subset.refl _, .refl ..⟩
  | made action isStale first rest ih =>
    have hfirst := Advances.of_realizes hg hdelivers ht action (hs _ List.mem_cons_self) first
    obtain ⟨hsubset, hrest⟩ := ih (hfirst.wellFormed ht) fun q hq ↦ hs q (List.mem_cons_of_mem _ hq)
    obtain ⟨hbefore, hmade⟩ := List.append_subset.mp hsubset
    exact ⟨hbefore, (hfirst.mono hmade).trans hrest⟩
  | kept action isFresh rest ih => exact ih ht fun q hq ↦ hs q (List.mem_cons_of_mem _ hq)

end

/-! ### Where products can be made -/

theorem exists_modified?_of_opens (ht : t.WellFormed) (h : t.Opens (project / q)) :
    ∃ m?, modified? t project q = .ok m? :=
  (h.exists_modified? ht).imp fun _ hm ↦ mapError_eq_ok.mpr hm

theorem missing_iff_of_opens (ht : t.WellFormed) (h : t.Opens (project / q)) :
    Missing t project q ↔ t.entry? (t.place (project / q)) = none :=
  h.time?_eq_none_iff ht

namespace Creatable

theorem segments_ne_nil (h : Creatable t project ps) (hq : q ∈ ps) : (project / q).segments ≠ [] := by
  intro hnil
  obtain ⟨m, hm⟩ : ∃ m, t.entry? (t.place (project / q)) = some (.directory m) := by
    rw [place_of_isStraight t (h.opens q hq).isStraight, hnil]
    cases (project / q).isAbsolute with
    | true => exact ⟨_, entry?_nil t⟩
    | false => exact h.wellFormed.current
  exact h.isFree q hq m hm

theorem exists_ensureParent (h : Creatable t project ps) (hq : q ∈ ps) :
    ∃ u, t.ensureDirectory (project / q).parent = (u, .ok ()) ∧ t.Grows u ∅ ∅ (above (t.place (project / q))) ∧
      ∃ m, u.entry? (u.place (project / q)).tail = some (.directory m) :=
  (h.opens q hq).exists_ensureParent h.wellFormed (h.segments_ne_nil hq)

theorem locate_eq_ok (h : Creatable t project ps) (hq : q ∈ ps) {m : Timestamp}
    (hparent : t.entry? (t.place (project / q)).tail = some (.directory m)) :
    t.locate (project / q) = .ok (t.place (project / q)) :=
  (h.opens q hq).locate_eq_ok h.wellFormed (h.segments_ne_nil hq) hparent

end Creatable

/-- After work on outputs files beside objects still stand aside. -/
theorem Advances.aside (h : g.Advances project rs t u) (haside : g.Aside t project ps) : g.Aside u project ps := by
  intro q hq l hl
  rw [h.place_eq]
  exact haside q hq l (h.beside_eq ▸ hl)

/-- After work on outputs products can still be made. -/
theorem Advances.creatable (h : g.Advances project rs t u) (hrs : rs ⊆ ps) (haside : g.Aside t project ps)
    (ht : Creatable t project ps) : Creatable u project ps where
  wellFormed := h.wellFormed ht.wellFormed
  opens := by
    intro q hq
    refine (ht.opens q hq).persists h fun l hl hmem ↦ ?_
    rcases hmem with ⟨r, hr, rfl⟩ | hbeside
    · exact ht.apart r (hrs hr) q hq hl
    · exact haside q hq l hbeside hl
  isFree := by
    intro q hq m hd
    rw [h.place_eq] at hd
    rcases h.directory_of _ m hd with hd | ⟨r, hr, hl⟩
    · exact ht.isFree q hq m hd
    · exact ht.apart q hq r (hrs hr) hl
  apart := by
    intro q hq q' hq'
    rw [h.place_eq, h.place_eq]
    exact ht.apart q hq q' hq'

section

variable (hg : g.Coherent) (hproducts : g.products = .ok ps)

include hg hproducts

/-- The files beside objects are products. -/
theorem beside_subset (t : FileTree) (project : Path) : g.beside t project ⊆ places t project ps := by
  rintro l ⟨x, hx, hl⟩
  obtain ⟨q, hq, rfl⟩ := ObjectRecord.mem_byproducts.mp hl
  exact ⟨q, (hg.mem_products hproducts).mpr (.inr ⟨x, hx, .inr hq⟩), rfl⟩

theorem filesIn_products (hx : x ∈ g.objects.values) : x.FilesIn ps :=
  ⟨(hg.mem_products hproducts).mpr (.inr ⟨x, hx, .inl rfl⟩), fun _ hq ↦
    (hg.mem_products hproducts).mpr (.inr ⟨x, hx, .inr hq⟩)⟩

theorem object_mem_products (hx : x ∈ g.objects.values) : x.path ∈ ps := (filesIn_products hg hproducts hx).1

/-- Where all products can be made the files beside objects stand aside. -/
theorem Creatable.aside (h : Creatable t project ps) : g.Aside t project ps := by
  intro q hq l hl
  obtain ⟨r, hr, rfl⟩ := beside_subset hg hproducts t project hl
  exact h.apart r hr q hq

/-- No object is one of the files beside objects. -/
theorem Creatable.object_notMem_beside (h : Creatable t project ps) (hx : x ∈ g.objects.values) :
    t.place (project / x.path) ∉ g.beside t project := by
  rintro ⟨y, hy, hbeside⟩
  have hstraight {x : ObjectRecord} (hx : x ∈ g.objects.values) : (project / x.path).IsStraight :=
    (h.opens _ (object_mem_products hg hproducts hx)).isStraight
  exact (hg.object _ _ (hg.find?_of_mem hx)).2.1.place_notMem_byproducts t (hstraight hx) (hstraight hy) hbeside

end

end Graph

/-! ### Compiling -/

namespace ObjectRecord.ListsText

open FileTree

variable {g : Graph} {o : BuildOptions} {x : ObjectRecord} {project p : Path} {t u : FileTree}

/-- Changes elsewhere leave the listing a text. -/
theorem of_touches {written made : Set Location} (h : x.ListsText t project) (hev : t.Touches u written made)
    (hoff : ∀ q, x.listing = .ok q → t.place (project / q) ∉ written) : x.ListsText u project := by
  intro q hq bytes m hfile
  rw [hev.place_eq] at hfile
  rcases hev.kept _ (hoff q hq) with hkept | ⟨-, -, hmade⟩
  · exact h q hq bytes m (hkept ▸ hfile)
  · simp [hmade] at hfile

/-- A compiler leaves the listing a text, unless the listing bears the name of its object. -/
theorem of_compiler (h : x.ListsText t project) {tools : Toolchain} (hdelivers : tools.Delivers g project)
    {a : CompileAction} {command : List String} {r : Response} (ha : g.compileActions.find? p = some a)
    (hw : a.command.words? = some command) (htool : tools t project command = (u, r)) (hr : r.IsSuccess)
    (hoff : t.place (project / a.object.path) ∉ x.byproducts t project) : x.ListsText u project := by
  intro q hq bytes m hfile
  obtain ⟨qs, hfills, -, hqs⟩ := hdelivers.compiled p a command t u r ha hw htool hr
  rw [hfills.touches.place_eq] at hfile
  by_cases hmem : ∃ q' ∈ qs, t.place (project / q) = t.place q'
  · obtain ⟨q', hq', heq⟩ := hmem
    rcases hqs q' hq' with rfl | ⟨l, hl, rfl⟩
    · exact absurd (ObjectRecord.mem_byproducts.mpr ⟨q, .inr hq, heq.symm⟩) hoff
    · rw [heq] at hfile
      rcases hdelivers.listing p a command t u r l bytes m ha hw htool hr hl hfile with hkept | htext
      · exact h q hq bytes m (heq ▸ hkept)
      · exact htext
  · rw [hfills.kept _ fun q' hq' heq ↦ hmem ⟨q', hq', heq⟩] at hfile
    exact h q hq bytes m hfile

/-- Finishing an object leaves the listing a text. -/
theorem of_finalize (h : x.ListsText t project) {y : ObjectRecord} {d? : Option Path}
    (hfinalize : Listing.finalize t project y = (u, .ok d?)) : x.ListsText u project := by
  intro q hq bytes m hfile
  rcases Listing.entry?_of_finalize hfinalize hfile with hkept | ⟨text, htext⟩
  · rw [FileTree.place_congr (Listing.fixed_finalize hfinalize).1] at hkept
    exact h q hq bytes m hkept
  · obtain ⟨rfl, -⟩ := Entry.file.inj htext
    exact ⟨_, Listing.readText_toUTF8 text⟩

/-- A compile leaves the listing a text, unless the listing bears the name of its object. -/
theorem of_compiles (h : x.ListsText t o.project) (hdelivers : o.tools.Delivers g o.project) (ht : t.WellFormed)
    {a : CompileAction} {command : List String} (ha : g.compileActions.find? a.object.path = some a)
    (hs : (o.project / a.object.path).IsStraight) (hcompiles : Graph.Compiles o a t u command)
    (hoff : t.place (o.project / a.object.path) ∉ x.byproducts t o.project) : x.ListsText u o.project := by
  obtain ⟨t₁, hparent, t₂, r, d?, hwords, htool, hr, hfinalize⟩ := hcompiles
  have hev : t.Evolves t₁ t.clock ∅ _ := congrArg Prod.fst hparent ▸ Graph.evolves_ensureParent_fst ht t.clock hs
  have hoff₁ : t₁.place (o.project / a.object.path) ∉ x.byproducts t₁ o.project := by
    rwa [hev.place_eq, Graph.byproducts_eq hev.current]
  have h₁ := h.of_touches hev.toTouches fun _ _ ↦ Set.notMem_empty _
  exact (h₁.of_compiler hdelivers ha hwords htool hr hoff₁).of_finalize hfinalize

end ObjectRecord.ListsText

namespace Graph

open FileTree

variable {g : Graph} {o : BuildOptions} {t u : FileTree} {ps : List Path} {p : Path}

section

variable (hg : g.Coherent) (hdelivers : o.tools.Delivers g o.project)

include hg hdelivers

/-- An object can be compiled. -/
theorem exists_compiles (ht : Creatable t o.project ps) (haside : g.Aside t o.project ps) {a : CompileAction}
    (ha : g.compileActions.find? a.object.path = some a) (hfiles : a.object.FilesIn ps)
    (htext : a.object.ListsText t o.project) :
    ∃ u command, Compiles o a t u command ∧ g.Advances o.project [a.object.path] t u ∧
      u.entry? (t.place (o.project / a.object.path)) ≠ none := by
  have hobject := (hg.compileAction _ a ha).2
  have hx := mem_values_of_object hobject
  obtain ⟨d, l, hd, hl, -⟩ := hg.exists_objectFiles hx
  obtain ⟨hmem, hbeside⟩ := hfiles
  have hmemd := hbeside d (.inl hd)
  have hmeml := hbeside l (.inr hl)
  have hs := (ht.opens _ hmem).isStraight
  have hrs : [a.object.path] ⊆ ps := List.cons_subset.mpr ⟨hmem, List.nil_subset _⟩
  -- the listing stands in one directory with the object
  have htail (t : FileTree) : (t.place (o.project / l)).tail = (t.place (o.project / a.object.path)).tail := by
    rw [← place_parent t (ht.opens l hmeml).isStraight (ht.segments_ne_nil hmeml),
      ← place_parent t hs (ht.segments_ne_nil hmem), ObjectRecord.parent_sibling hl]
  -- no object bears the name of a listing
  have hoff (t : FileTree) : t.place (o.project / a.object.path) ∉ a.object.byproducts t o.project :=
    (hg.object _ _ hobject).2.1.place_notMem_byproducts t hs hs
  obtain ⟨t₁, hparent, hgrows₁, m, hdir₁⟩ := ht.exists_ensureParent hmem
  have hadvances₁ : g.Advances o.project [a.object.path] t t₁ := .of_ensureParent List.mem_cons_self hgrows₁
  have ht₁ := hadvances₁.creatable hrs haside ht
  have htext₁ := htext.of_touches hgrows₁.toTouches (by simp)
  obtain ⟨command, hw, hsucceeds⟩ := hdelivers.compile _ a ha
  have hadmits : t₁.Admits [o.project / a.object.path, o.project / l] := by
    intro q hq
    rcases List.mem_cons.mp hq with rfl | hq
    · exact ⟨ht₁.locate_eq_ok hmem hdir₁, ht₁.isFree _ hmem⟩
    · rw [List.mem_singleton.mp hq]
      exact ⟨ht₁.locate_eq_ok hmeml (htail t₁ ▸ hdir₁), ht₁.isFree _ hmeml⟩
  have hr := hsucceeds t₁ l hl hadmits
  cases htool : o.tools t₁ o.project command with
  | mk t₂ r =>
    rw [htool] at hr
    obtain ⟨qs, hfills, hthere, -⟩ := hdelivers.compiled _ _ _ _ _ _ ha hw htool hr
    have hadvances₂ := Advances.of_compiler hg hdelivers ha hw htool hr
    have ht₂ := hadvances₂.creatable hrs (hadvances₁.aside haside) ht₁
    have htext₂ := htext₁.of_compiler hdelivers ha hw htool hr (hoff t₁)
    have hdir₂ : t₂.entry? (t₂.place (o.project / l)).tail = some (.directory m) := by
      rw [htail, hadvances₂.place_eq]
      exact hfills.directory hdir₁
    obtain ⟨u, d?, hfinalize⟩ := Listing.exists_finalize hl hd (ht₂.locate_eq_ok hmeml hdir₂) (ht₂.isFree _ hmeml)
      (ht₂.isFree _ hmemd) (htext₂ l hl)
    have hcompiles : Compiles o a t u command := ⟨t₁, hparent, t₂, r, d?, hw, htool, hr, hfinalize⟩
    refine ⟨u, command, hcompiles, .of_compiles hg hdelivers ht.wellFormed ha hs hcompiles, ?_⟩
    obtain ⟨bytes, m', hfile⟩ := hfills.file _ hthere
    rw [hadvances₁.place_eq] at hfile
    have hplace := (hadvances₁.trans hadvances₂).place_eq (o.project / a.object.path)
    exact hplace ▸ (Listing.grows_finalize ht₂.wellFormed hfinalize).stays _ (hoff t₂) (by simp [hplace, hfile])

/-- Objects can be compiled one after another. -/
theorem exists_compilesAll {as : List CompileAction} (ht : Creatable t o.project ps) (haside : g.Aside t o.project ps)
    (ha : ∀ a ∈ as, g.compileActions.find? a.object.path = some a) (hfiles : ∀ a ∈ as, a.object.FilesIn ps)
    (htexts : ∀ a ∈ as, a.object.ListsText t o.project)
    (hoff : ∀ a ∈ as, t.place (o.project / a.object.path) ∉ g.beside t o.project) :
    ∃ u commands, CompilesAll o as t u commands ∧ g.Advances o.project (as.map (·.object.path)) t u ∧
      ∀ a ∈ as, u.entry? (t.place (o.project / a.object.path)) ≠ none := by
  induction as generalizing t with
  | nil => exact ⟨t, [], .nil, .refl .., by simp⟩
  | cons a as ih =>
    simp only [List.forall_mem_cons] at ha hfiles htexts hoff
    obtain ⟨t₁, command, hfirst, hadvances, hthere⟩ :=
      exists_compiles hg hdelivers ht haside ha.1 hfiles.1 htexts.1
    have ht₁ := hadvances.creatable (List.cons_subset.mpr ⟨hfiles.1.1, List.nil_subset _⟩) haside ht
    have htexts₁ : ∀ a' ∈ as, a'.object.ListsText t₁ o.project := by
      intro a' ha'
      have hx' := mem_values_of_object (hg.compileAction _ a' (ha.2 a' ha')).2
      exact (htexts.2 a' ha').of_compiles hdelivers ht.wellFormed ha.1 (ht.opens _ hfiles.1.1).isStraight hfirst
        fun hmem ↦ hoff.1 ⟨_, hx', hmem⟩
    obtain ⟨u, commands, hrest, hadvances', hall⟩ := ih ht₁ (hadvances.aside haside) ha.2 hfiles.2 htexts₁
      (by rw [hadvances.beside_eq]; simpa only [hadvances.place_eq] using hoff.2)
    have hadvances' := hadvances'.mono (List.subset_cons_self a.object.path _)
    refine ⟨u, command :: commands, .cons hfirst hrest, (hadvances.mono ?_).trans hadvances', fun a' ha' ↦ ?_⟩
    · exact List.cons_subset.mpr ⟨List.mem_cons_self, List.nil_subset _⟩
    · rcases List.mem_cons.mp ha' with rfl | ha'
      · refine hadvances'.stays _ ?_ hthere
        rw [hadvances.beside_eq]
        exact hoff.1
      · rw [← hadvances.place_eq]
        exact hall a' ha'

/-- A target can be made, and nothing is removed by that. -/
theorem exists_realizes (ht : Creatable t o.project ps) (haside : g.Aside t o.project ps) {a : TargetAction}
    (ha : g.targetActions.find? p = some a) (hmem : p ∈ ps) :
    ∃ u command, Realizes o a t u command ∧ g.Advances o.project [p] t u ∧
      u.entry? (t.place (o.project / p)) ≠ none ∧ ∀ l, t.entry? l ≠ none → u.entry? l ≠ none := by
  obtain ⟨rfl, -⟩ := hg.targetAction p a ha
  obtain ⟨t₁, hparent, hgrows₁, m, hdir₁⟩ := ht.exists_ensureParent hmem
  have hadvances₁ : g.Advances o.project [a.target] t t₁ := .of_ensureParent List.mem_cons_self hgrows₁
  have ht₁ := hadvances₁.creatable (List.cons_subset.mpr ⟨hmem, List.nil_subset _⟩) haside ht
  obtain ⟨command, hw, hsucceeds⟩ := hdelivers.realize _ a ha
  have hadmits : t₁.Admits [o.project / a.target] := by
    intro q hq
    rw [List.mem_singleton.mp hq]
    exact ⟨ht₁.locate_eq_ok hmem hdir₁, ht₁.isFree _ hmem⟩
  have hr := hsucceeds t₁ hadmits
  cases htool : o.tools t₁ o.project command with
  | mk u r =>
    rw [htool] at hr
    have hrealizes : Realizes o a t u command := ⟨t₁, hparent, r, hw, htool, hr⟩
    have hfills := hdelivers.realized _ a command t₁ u r ha hw htool hr
    obtain ⟨bytes, m', hfile⟩ := hfills.file _ List.mem_cons_self
    rw [hadvances₁.place_eq] at hfile
    refine ⟨u, command, hrealizes,
      .of_realizes hg hdelivers ht.wellFormed ha (ht.opens _ hmem).isStraight hrealizes, by simp [hfile], fun l he ↦ ?_⟩
    exact hfills.grows.stays l (Set.notMem_empty l) (hgrows₁.stays l (Set.notMem_empty l) he)

end

end Graph

end ModuleBuild
