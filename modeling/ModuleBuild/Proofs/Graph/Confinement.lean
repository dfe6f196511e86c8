import ModuleBuild.Proofs.Graph.Flags
import ModuleBuild.Proofs.Graph.Refusing
import ModuleBuild.Proofs.Path.Siblings

/-!
# The flags of a module stay with it

Two trees whose descriptors are the same but for the flags that some of them set resolve in the same way
(`Project.resolve_confines`): to the same failure, or to graphs that differ only in the flags and the commands of the
objects whose sources those descriptors list. Both walks are followed at once, since a reference leads to the same module
but for its flags (`Module.Unfolds.agreesOff`), and what flags do not decide is the same in both blueprints.
-/

namespace ModuleBuild

variable {D : Set Path} {t t' : FileTree} {project : Path}

/-! ### What occurrences come to -/

/-- The records are those of one object, with the same flags unless its source is among those listed. -/
structure ObjectRecord.AgreesOff (listed : Set Path) (x y : ObjectRecord) : Prop where
  withoutFlags : x.withoutFlags = y.withoutFlags
  eq_of_notMem : x.source ∉ listed → x = y

/-- The actions compile one object with one compiler, by the same command unless its source is among those listed. -/
structure CompileAction.AgreesOff (listed : Set Path) (a b : CompileAction) : Prop where
  object : a.object.AgreesOff listed b.object
  program : a.command.program = b.command.program
  eq_of_notMem : a.object.source ∉ listed → a = b

/-- The graphs are the same, but for the flags and the commands of objects whose sources are among those listed. -/
structure Graph.AgreesOff (listed : Set Path) (g g' : Graph) : Prop where
  linker : g.linker = g'.linker
  targets : g.targets = g'.targets
  targetActions : g.targetActions = g'.targetActions
  compileRules : g.compileRules = g'.compileRules
  headers : g.headers = g'.headers
  objects : g.objects.Related (ObjectRecord.AgreesOff listed) g'.objects
  compileActions : g.compileActions.Related (CompileAction.AgreesOff listed) g'.compileActions

theorem Occurrence.AgreesOff.withoutFlags_eq {o o' : Occurrence} (h : o.AgreesOff D o') :
    o.withoutFlags = o'.withoutFlags := by
  have hancestors : o.ancestors.map Module.withoutFlags = o'.ancestors.map Module.withoutFlags := by
    apply map_eq_map_iff_forall₂.mpr
    exact h.ancestors.imp fun _ _ hm ↦ hm.withoutFlags
  rw [Occurrence.withoutFlags, Occurrence.withoutFlags, h.module.withoutFlags, hancestors]

/-- Modules that are the same but for flags have the same records but for the flags of sources that they list. -/
theorem Module.AgreesOff.records {m m' : Module} {listed : Set Path} (h : m.AgreesOff D m') (buildDir : Path)
    (hlisted : m.path ∈ D → ∀ source ∈ m.sources, m.directory / Path.ofString source ∈ listed) :
    List.Forall₂ (ObjectRecord.AgreesOff listed) (m.records buildDir) (m'.records buildDir) := by
  by_cases hpath : m.path ∈ D
  · have hrecords : (m.records buildDir).map ObjectRecord.withoutFlags =
        (m'.records buildDir).map ObjectRecord.withoutFlags := by
      rw [← m.records_withoutFlags, ← m'.records_withoutFlags, h.withoutFlags]
    have hsources : ∀ x ∈ m.records buildDir, x.source ∈ listed := by
      intro x hx
      obtain ⟨source, hsource, _, _, -, -, rfl⟩ := exists_of_mem_records hx
      exact hlisted hpath source hsource
    have hboth := (List.forall₂_and_left _ _).mpr ⟨hsources, map_eq_map_iff_forall₂.mp hrecords⟩
    exact hboth.imp fun x y hxy ↦ ⟨hxy.2, fun hx ↦ absurd hxy.1 hx⟩
  · rw [← h.eq_of_notMem hpath]
    exact List.forall₂_same.mpr fun x _ ↦ ⟨rfl, fun _ ↦ rfl⟩

namespace Blueprint

variable {s : Settings} {os os' : List Occurrence} {listed : Set Path}
  (h : List.Forall₂ (Occurrence.AgreesOff D) os os')

include h

/-- Without flags the blueprints are the same. -/
theorem withoutFlags_eq : (⟨s, os⟩ : Blueprint).withoutFlags = (⟨s, os'⟩ : Blueprint).withoutFlags := by
  have hos : os.map Occurrence.withoutFlags = os'.map Occurrence.withoutFlags := by
    apply map_eq_map_iff_forall₂.mpr
    exact h.imp fun _ _ ho ↦ ho.withoutFlags_eq
  rw [withoutFlags, withoutFlags]
  exact congrArg (Blueprint.mk s) hos

theorem fault?_agreesOff : (⟨s, os⟩ : Blueprint).fault? = (⟨s, os'⟩ : Blueprint).fault? := by
  rw [← fault?_withoutFlags, withoutFlags_eq h, fault?_withoutFlags]

variable (hlisted : ∀ o ∈ os, o.module.path ∈ D → ∀ source ∈ o.module.sources,
  o.module.directory / Path.ofString source ∈ listed)

include hlisted

theorem records_agreesOff :
    List.Forall₂ (ObjectRecord.AgreesOff listed) (⟨s, os⟩ : Blueprint).records (⟨s, os'⟩ : Blueprint).records := by
  refine List.rel_flatMap ((List.forall₂_and_left _ _).mpr ⟨hlisted, h⟩) ?_
  intro o o' ho
  exact ho.2.module.records s.buildDir ho.1

theorem objects_agreesOff :
    (⟨s, os⟩ : Blueprint).objects.Related (ObjectRecord.AgreesOff listed) (⟨s, os'⟩ : Blueprint).objects := by
  apply Table.related_ofList
  rw [List.forall₂_map_left_iff, List.forall₂_map_right_iff]
  exact (records_agreesOff h hlisted).imp fun x y hxy ↦ ⟨(congrArg ObjectRecord.path hxy.withoutFlags :), hxy⟩

/-- The graphs of occurrences that are the same but for flags are the same but for the flags of sources that are
listed there. -/
theorem graph_agreesOff (headers : Table Path (List Path)) :
    Graph.AgreesOff listed { (⟨s, os⟩ : Blueprint).graph with headers }
      { (⟨s, os'⟩ : Blueprint).graph with headers } := by
  have hlinker : (⟨s, os⟩ : Blueprint).linker = (⟨s, os'⟩ : Blueprint).linker := by
    rw [← linker_withoutFlags, withoutFlags_eq h, linker_withoutFlags]
  have hdeclared : (⟨s, os⟩ : Blueprint).declared = (⟨s, os'⟩ : Blueprint).declared := by
    rw [← declared_withoutFlags, withoutFlags_eq h, declared_withoutFlags]
  have htargetAt : (⟨s, os⟩ : Blueprint).targetAt = (⟨s, os'⟩ : Blueprint).targetAt := by
    funext p
    rw [← targetAt_withoutFlags, withoutFlags_eq h, targetAt_withoutFlags]
  have hobjects := objects_agreesOff (s := s) h hlisted
  constructor
  case linker => exact hlinker
  case targets =>
    change Table.tabulate _ _ = Table.tabulate _ _
    rw [hdeclared, htargetAt]
  case targetActions =>
    change Table.tabulate _ _ = Table.tabulate _ _
    rw [hdeclared, htargetAt, hlinker]
  case compileRules => rfl
  case headers => rfl
  case objects => exact hobjects
  case compileActions =>
    change List.Forall₂ _ (List.map _ _) (List.map _ _)
    rw [List.forall₂_map_left_iff, List.forall₂_map_right_iff]
    refine hobjects.imp fun e e' he ↦ ⟨he.1, he.2, ?_, fun hsource ↦ ?_⟩
    · have hlanguage : e.2.language = e'.2.language := (congrArg ObjectRecord.language he.2.withoutFlags :)
      change s.compiler e.2.language = s.compiler e'.2.language
      rw [hlanguage]
    · rw [he.2.eq_of_notMem hsource]
      rfl

end Blueprint

/-! ### Resolution -/

/-- Flags are no settings. -/
theorem Module.AgreesOff.settingsOf_eq {m m' : Module} (h : m.AgreesOff D m') (p : Project) :
    p.settingsOf m = p.settingsOf m' := by
  rw [Project.settingsOf, Project.settingsOf, h.project_eq]

/-- The headers of objects are taken in alike if their dependency descriptors are. -/
theorem Listing.includeAll_agreesOff {listed : Set Path} {xs ys : List ObjectRecord}
    (h : List.Forall₂ (ObjectRecord.AgreesOff listed) xs ys)
    (hheaders : ∀ x ∈ xs, headersOf t project x = headersOf t' project x) (headers : Table Path (List Path)) :
    includeAll t project headers xs = includeAll t' project headers ys := by
  induction h generalizing headers with
  | nil => rfl
  | @cons x y xs ys hxy _ ih =>
    have hpath : x.path = y.path := (congrArg ObjectRecord.path hxy.withoutFlags :)
    have hfirst : headersOf t project x = headersOf t' project y := by
      rw [hheaders x List.mem_cons_self, ← headersOf_withoutFlags, hxy.withoutFlags, headersOf_withoutFlags]
    have hrest := ih fun x hx ↦ hheaders x (List.mem_cons_of_mem _ hx)
    rw [includeAll, includeAll, hfirst, hpath]
    simp only [hrest]

/-- The headers of objects do not change with a file that is no dependency descriptor. -/
theorem Listing.headersOf_of_edited {l : Location} {bytes bytes' : ByteArray} (h : t.EditedAt t' l bytes bytes')
    (hname : ∀ s ∈ l.head?, ¬s.EndsIn .dependencies) (x : ObjectRecord) :
    headersOf t project x = headersOf t' project x := by
  unfold headersOf
  cases hd : x.dependencies with
  | error e => rfl
  | ok d =>
    obtain ⟨s, -, hlast, -⟩ := ObjectRecord.sibling_eq_ok hd
    have hends := s.endsIn_withSuffix .dependencies
    have hplace : t.place (project / d) ≠ l := by
      intro hl
      have hjoin := Path.name?_join (p := project) (Path.segments_ne_nil_of_name? hlast)
      have hup := Segment.ne_up_of_endsIn hends Suffix.text_dependencies (by decide)
      exact hname _ (hl ▸ t.head?_place_of_ne_up hup (hjoin.trans hlast)) hends
    simp only [mapError_ok, ok_bind, readText, h.sameShape.isFile_eq, (h.alikeAt hplace).read_eq]

namespace Project

variable {p : Project} {root : Module} {s : Settings} {os : List Occurrence} {f : Failure}

/-- The trees agree on the descriptors that a project takes up, but for the flags that the modules of `D` set: on that of
the root, on those to which references lead, and on the dependency descriptors of objects, if headers are asked for. -/
structure TreesAgreeOff (p : Project) (D : Set Path) (t t' : FileTree) : Prop where
  root : Module.LoadsAlike D t t' p.directory p.root
  references : ∀ root s before o r, p.load t = .ok (root, s) →
    Module.Reaches t p.directory root [] root.submodules before o r →
    Module.LeadsAlike D t t' p.directory o.module.directory r
  headers : p.includeHeaders → ∀ root s os, p.load t = .ok (root, s) →
    Module.Unfolds t p.directory root [] root.submodules os none →
    ∀ x ∈ (⟨s, ⟨root, []⟩ :: os⟩ : Blueprint).records,
      Listing.headersOf t p.directory x = Listing.headersOf t' p.directory x

/-- The sources that the modules of `D` list. -/
def listed (p : Project) (t : FileTree) (D : Set Path) : Set Path :=
  { path | ∃ q ∈ D, ∃ m, Module.load t p.directory q = .ok m ∧
    ∃ source ∈ m.sources, path = m.directory / Path.ofString source }

/-- Where the modules of `D` occur, the sources that they list are listed. -/
theorem mem_listed {ending : Option Failure} (hload : p.load t = .ok (root, s))
    (hunfolds : Module.Unfolds t p.directory root [] root.submodules os ending) :
    ∀ o ∈ (⟨root, []⟩ :: os : List Occurrence), o.module.path ∈ D → ∀ source ∈ o.module.sources,
      o.module.directory / Path.ofString source ∈ p.listed t D := by
  intro o ho hD source hsource
  exact ⟨_, hD, o.module, hunfolds.load_eq (module_load_of_load hload) o ho, source, hsource, rfl⟩

namespace TreesAgreeOff

variable (h : p.TreesAgreeOff D t t')

include h

theorem load_eq_error (hload : p.load t = .error f) : p.load t' = .error f := by
  apply Project.load_eq_error.mpr
  rcases Project.load_eq_error.mp hload with ⟨e, he, hf⟩ | ⟨root, hroot, hs⟩
  · exact .inl ⟨e, h.root.load_eq_error he, hf⟩
  · obtain ⟨root', hroot', hagree⟩ := h.root.load_eq_ok hroot
    exact .inr ⟨root', hroot', hagree.settingsOf_eq p ▸ hs⟩

theorem load_eq_ok (hload : p.load t = .ok (root, s)) :
    ∃ root', p.load t' = .ok (root', s) ∧ root.AgreesOff D root' := by
  obtain ⟨hroot, hs⟩ := Project.load_eq_ok.mp hload
  obtain ⟨root', hroot', hagree⟩ := h.root.load_eq_ok hroot
  exact ⟨root', Project.load_eq_ok.mpr ⟨hroot', hagree.settingsOf_eq p ▸ hs⟩, hagree⟩

/-- The references of the root module unfold alike. -/
theorem unfolds {ending : Option Failure} (hload : p.load t = .ok (root, s))
    (hunfolds : Module.Unfolds t p.directory root [] root.submodules os ending) :
    ∃ root' os', p.load t' = .ok (root', s) ∧
      Module.Unfolds t' p.directory root' [] root'.submodules os' ending ∧
      List.Forall₂ (Occurrence.AgreesOff D) (⟨root, []⟩ :: os) (⟨root', []⟩ :: os') := by
  obtain ⟨root', hload', hagree⟩ := h.load_eq_ok hload
  obtain ⟨os', hunfolds', hos⟩ := hunfolds.agreesOff hagree .nil fun before o r ↦ h.references root s before o r hload
  rw [hagree.submodules_eq] at hunfolds'
  exact ⟨root', os', hload', hunfolds', .cons ⟨hagree, .nil⟩ hos⟩

/-- Headers are taken in alike. -/
theorem withHeaders_eq {root' : Module} {os' : List Occurrence} (hload : p.load t = .ok (root, s))
    (hunfolds : Module.Unfolds t p.directory root [] root.submodules os none)
    (hos : List.Forall₂ (Occurrence.AgreesOff D) (⟨root, []⟩ :: os) (⟨root', []⟩ :: os')) :
    ∃ (headers : Table Path (List Path)) (said : Except Failure (List Log.Record)),
      p.withHeaders t (⟨s, ⟨root, []⟩ :: os⟩ : Blueprint).graph =
        said.map (fun records ↦ ({ (⟨s, ⟨root, []⟩ :: os⟩ : Blueprint).graph with headers }, records)) ∧
      p.withHeaders t' (⟨s, ⟨root', []⟩ :: os'⟩ : Blueprint).graph =
        said.map (fun records ↦ ({ (⟨s, ⟨root', []⟩ :: os'⟩ : Blueprint).graph with headers }, records)) := by
  cases hinclude : p.includeHeaders with
  | false =>
    refine ⟨.empty, .ok [], ?_, ?_⟩
    · rw [withHeaders, hinclude]
      rfl
    · rw [withHeaders, hinclude]
      rfl
  | true =>
    have hvalues : List.Forall₂ (ObjectRecord.AgreesOff (p.listed t D))
        (⟨s, ⟨root, []⟩ :: os⟩ : Blueprint).objects.values (⟨s, ⟨root', []⟩ :: os'⟩ : Blueprint).objects.values := by
      rw [Table.values, Table.values, List.forall₂_map_left_iff, List.forall₂_map_right_iff]
      exact (Blueprint.objects_agreesOff hos (mem_listed hload hunfolds)).imp fun _ _ he ↦ he.2
    have hheaders : ∀ x ∈ (⟨s, ⟨root, []⟩ :: os⟩ : Blueprint).objects.values,
        Listing.headersOf t p.directory x = Listing.headersOf t' p.directory x := by
      intro x hx
      obtain ⟨e, he, rfl⟩ := List.mem_map.mp hx
      exact h.headers hinclude root s os hload hunfolds e.2 (Blueprint.mem_records he).1
    have hall := Listing.includeAll_agreesOff hvalues hheaders .empty
    have hwith (t : FileTree) (b : Blueprint) : p.withHeaders t b.graph =
        ((Listing.includeAll t p.directory .empty b.objects.values).2.map fun n ↦ [Listing.includeRecord n]).map
          fun records ↦
            ({ b.graph with headers := (Listing.includeAll t p.directory .empty b.objects.values).1 }, records) := by
      rw [withHeaders, hinclude, if_pos rfl, Listing.includeHeaders]
      change Except.map _ (Listing.includeAll t p.directory .empty b.objects.values).2 = _
      cases (Listing.includeAll t p.directory .empty b.objects.values).2 <;> rfl
    refine ⟨_, _, hwith t _, ?_⟩
    rw [hwith t', hall]

end TreesAgreeOff

/-- What fails in one tree fails in the other in the same way. -/
theorem TreesAgreeOff.resolve_eq_error (h : p.TreesAgreeOff D t t') (hf : (p.resolve t).2 = .error f) :
    (p.resolve t').2 = .error f := by
  apply Refuses.resolve
  cases refuses_of_resolve hf with
  | load load => exact .load (h.load_eq_error load)
  | fault load unfolds fault =>
    obtain ⟨root', os', hload', hunfolds', hos⟩ := h.unfolds load unfolds
    rw [Blueprint.fault?_agreesOff hos] at fault
    exact .fault hload' hunfolds' fault
  | ending load unfolds noFault =>
    obtain ⟨root', os', hload', hunfolds', hos⟩ := h.unfolds load unfolds
    rw [Blueprint.fault?_agreesOff hos] at noFault
    exact .ending hload' hunfolds' noFault
  | headers load unfolds noFault headers =>
    obtain ⟨root', os', hload', hunfolds', hos⟩ := h.unfolds load unfolds
    obtain ⟨taken, said, htaken, htaken'⟩ := h.withHeaders_eq load unfolds hos
    rw [Blueprint.fault?_agreesOff hos] at noFault
    rw [htaken] at headers
    cases said with
    | ok records => cases headers
    | error e => exact .headers hload' hunfolds' noFault (htaken'.trans (congrArg _ (Except.error.inj headers)))

/-- What is resolved in one tree is resolved in the other, to the same but for flags. -/
theorem TreesAgreeOff.resolve_eq_ok (h : p.TreesAgreeOff D t t') {r : Resolved} (hr : (p.resolve t).2 = .ok r) :
    ∃ r', (p.resolve t').2 = .ok r' ∧ r.settings = r'.settings ∧ r.graph.AgreesOff (p.listed t D) r'.graph := by
  obtain ⟨root, os, hresolves⟩ := Project.resolve_eq_ok.mp hr
  obtain ⟨root', os', hload', hunfolds', hos⟩ := h.unfolds hresolves.load hresolves.unfolds
  obtain ⟨headers, said, htaken, htaken'⟩ := h.withHeaders_eq hresolves.load hresolves.unfolds hos
  obtain ⟨records, hw⟩ := hresolves.withHeaders
  rw [htaken] at hw
  obtain ⟨records', rfl, htook⟩ := map_eq_ok.mp hw
  have hgraph := congrArg Prod.fst htook
  dsimp only at hgraph
  have hfault := hresolves.noFault
  rw [Blueprint.fault?_agreesOff hos] at hfault
  refine ⟨⟨{ (⟨r.settings, ⟨root', []⟩ :: os'⟩ : Blueprint).graph with headers }, r.settings⟩,
    Project.resolve_eq_ok.mpr ⟨root', os', hload', hunfolds', hfault, records', htaken'⟩, rfl, ?_⟩
  rw [← hgraph]
  exact Blueprint.graph_agreesOff hos (mem_listed hresolves.load hresolves.unfolds) headers

/-- A file is edited that is no dependency descriptor, and describes the same module but for flags: on all else the trees
agree. -/
theorem treesAgreeOff_of_edited {l : Location} {bytes bytes' : ByteArray} (p : Project)
    (h : t.EditedAt t' l bytes bytes')
    (hbytes : (Module.ofBytes .here bytes).map Module.withoutFlags = (Module.ofBytes .here bytes').map Module.withoutFlags)
    (hname : ∀ s ∈ l.head?, ¬s.EndsIn .dependencies) :
    p.TreesAgreeOff { q | t.place (p.directory / q) = l } t t' where
  root := Module.loadsAlike_of_edited h hbytes p.directory p.root
  references := fun _ _ _ o r _ _ ↦ Module.leadsAlike_of_edited h hbytes p.directory o.module.directory r
  headers := fun _ _ _ _ _ _ x _ ↦ Listing.headersOf_of_edited h hname x

/-- The flags that modules set stay with them. Two trees whose descriptors are the same, but for the flags that some
modules set, resolve in the same way: one fails if the other does, with the same failure, and otherwise the settings are
the same and the graphs differ only in the flags and the commands of objects whose sources those modules list. -/
theorem resolve_confines (h : p.TreesAgreeOff D t t') :
    (∀ f, (p.resolve t).2 = .error f ↔ (p.resolve t').2 = .error f) ∧
      ∀ r r', (p.resolve t).2 = .ok r → (p.resolve t').2 = .ok r' →
        r.settings = r'.settings ∧ r.graph.AgreesOff (p.listed t D) r'.graph := by
  constructor
  · intro f
    refine ⟨h.resolve_eq_error, fun hf' ↦ ?_⟩
    cases hr : (p.resolve t).2 with
    | error e => exact (h.resolve_eq_error hr).symm.trans hf'
    | ok r =>
      obtain ⟨r', hr', -⟩ := h.resolve_eq_ok hr
      cases hr'.symm.trans hf'
  · intro r r' hr hr'
    obtain ⟨r₁, hr₁, hagree⟩ := h.resolve_eq_ok hr
    obtain rfl := Except.ok.inj (hr₁.symm.trans hr')
    exact hagree

/-- A module that refers twice to another, and to a third in the same directory. -/
def sharedTree : FileTree := .ofFiles (.ofSeconds 100) [
  ("main.ini", "[module]\ntarget=app\nsources=a.c\nsubmodules=lib lib/more.ini lib", .ofSeconds 50),
  ("lib/module.ini", "[module]\nsources=b.c", .ofSeconds 50),
  ("lib/more.ini", "[module]\nsources=c.c", .ofSeconds 50)]

/-- The tree in which the module that is referred to twice sets flags. -/
def tunedTree : FileTree :=
  sharedTree.put (Path.ofString "lib/module.ini").segments.reverse
    (.file "[module]\nsources=b.c\ncflags=-O3\ndefines=FAST".toUTF8 (.ofSeconds 60))

/-- The source of that module is compiled with the flags, and no other. -/
theorem resolve_confines_of_tuned :
    ((({} : Project).resolve sharedTree).2.toOption.map fun r ↦
        r.graph.compileActions.values.map fun a ↦ a.command.arguments) =
      some [["-o", "build/a.o", "-c", "-MD", "a.c"],
        ["-o", "build/lib/b.o", "-c", "-MD", "lib/b.c"],
        ["-o", "build/lib/c.o", "-c", "-MD", "lib/c.c"]] ∧
    ((({} : Project).resolve tunedTree).2.toOption.map fun r ↦
        r.graph.compileActions.values.map fun a ↦ a.command.arguments) =
      some [["-o", "build/a.o", "-c", "-MD", "a.c"],
        ["-o", "build/lib/b.o", "-c", "-MD", "-O3", "-DFAST", "lib/b.c"],
        ["-o", "build/lib/c.o", "-c", "-MD", "lib/c.c"]] ∧
    ∃ D : Set Path, Path.ofString "lib/more.ini" ∉ D ∧ ({} : Project).TreesAgreeOff D sharedTree tunedTree ∧
      (∀ f, (({} : Project).resolve sharedTree).2 = .error f ↔ (({} : Project).resolve tunedTree).2 = .error f) ∧
      ∀ r r', (({} : Project).resolve sharedTree).2 = .ok r → (({} : Project).resolve tunedTree).2 = .ok r' →
        r.settings = r'.settings ∧ r.graph.AgreesOff (({} : Project).listed sharedTree D) r'.graph := by
  have hfile : sharedTree.entry? (Path.ofString "lib/module.ini").segments.reverse =
      some (.file "[module]\nsources=b.c".toUTF8 (.ofSeconds 50)) := by
    decide +kernel
  have hedited : sharedTree.EditedAt tunedTree (Path.ofString "lib/module.ini").segments.reverse
      "[module]\nsources=b.c".toUTF8 "[module]\nsources=b.c\ncflags=-O3\ndefines=FAST".toUTF8 :=
    .put hfile _
  have hagree := treesAgreeOff_of_edited {} hedited (by decide +kernel) (by decide +kernel)
  exact ⟨by decide +kernel, by decide +kernel, _, by decide +kernel, hagree, resolve_confines hagree⟩

end Project

end ModuleBuild
