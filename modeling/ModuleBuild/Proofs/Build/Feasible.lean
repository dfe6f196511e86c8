import ModuleBuild.Proofs.Build.Foreseeing
import ModuleBuild.Proofs.Build.Rebuild
import ModuleBuild.Proofs.Build.Territory

/-!
# Builds that cannot but succeed

What a build has made shows that it could be made: no file stood on the way there, and no directory in its place. Where
room is left for the files beside objects (`RoomBeside`), the same objects and targets can then be made from the same
tree by other tools and in other parts (`Feasible`, `Builds.exists_feasible`). What is to be made is made, if all of it
can be made and whatever targets are made from is there or comes about (`exists_realizesAll_of_feasible`): a build that
is under way gets on with each target (`Underway.step`) and so comes to its end (`Underway.realizesAll`).
-/

namespace ModuleBuild

open FileTree

namespace ObjectRecord

/-- The object and the files beside it. -/
def files (x : ObjectRecord) : List Path :=
  x.path :: (x.dependencies.toOption.toList ++ x.listing.toOption.toList)

theorem mem_files {x : ObjectRecord} {q : Path} :
    q ∈ x.files ↔ q = x.path ∨ x.dependencies = .ok q ∨ x.listing = .ok q := by
  simp only [files, List.mem_cons, List.mem_append, Option.mem_toList, toOption_eq_some]

theorem filesIn_of_subset {x : ObjectRecord} {ps : List Path} (h : x.files ⊆ ps) : x.FilesIn ps :=
  ⟨h (mem_files.mpr (.inl rfl)), fun _ hq ↦ h (mem_files.mpr (.inr hq))⟩

/-- Where an object can be looked up no name beside it is too long. -/
theorem IsObject.isNameable {x : ObjectRecord} (h : x.IsObject) {t : FileTree} {project q : Path} {l : Location}
    (hlocate : t.locate (project / x.path) = .ok l) (hq : q ∈ x.files) : (project / q).IsNameable := by
  rcases mem_files.mp hq with rfl | hq | hq
  · exact isNameable_of_locate hlocate
  · obtain ⟨s, above, -, hsibling⟩ := Listing.locate_sibling h.sibling_object hq Suffix.text_object
      Suffix.text_dependencies (by decide) (by decide) (by decide +kernel) (by decide) hlocate
    exact isNameable_of_locate hsibling
  · obtain ⟨s, above, -, hsibling⟩ := Listing.locate_sibling h.sibling_object hq Suffix.text_object
      Suffix.text_listing (by decide) (by decide) (by decide +kernel) (by decide) hlocate
    exact isNameable_of_locate hsibling

/-- Files beside an object stand in one directory with it, without double dots on the way. -/
theorem tail_of_mem_files {x : ObjectRecord} (t : FileTree) {project q : Path}
    (hs : (project / x.path).IsStraight) (hname : x.IsObject) (hq : q ∈ x.files) :
    (project / q).IsStraight ∧ (t.place (project / q)).tail = (t.place (project / x.path)).tail := by
  obtain ⟨s, hs'⟩ := hname
  rcases mem_files.mp hq with rfl | hq | hq
  · exact ⟨hs, rfl⟩
  · exact ⟨isStraight_sibling hs hq Suffix.text_dependencies (by decide), by
      rw [place_sibling t hs hs' hq Suffix.text_dependencies (by decide), List.tail_cons]⟩
  · exact ⟨isStraight_sibling hs hq Suffix.text_listing (by decide), by
      rw [place_sibling t hs hs' hq Suffix.text_listing (by decide), List.tail_cons]⟩

end ObjectRecord

namespace Graph

variable {g : Graph} {o : BuildOptions} {project : Path} {now : Timestamp} {t u : FileTree} {as : List CompileAction}
  {ps rs compiled targets done todo : List Path} {p q : Path}

/-! ### What has been made can be made -/

/-- Some objects and some targets can be made in a tree, whatever else there is. -/
structure Feasible (g : Graph) (t : FileTree) (project : Path) (compiled targets ps : List Path) : Prop
    extends Creatable t project ps where
  aside : g.Aside t project ps
  files : ∀ x ∈ g.objects.values, x.path ∈ compiled → x.FilesIn ps
  texts : ∀ x ∈ g.objects.values, x.path ∈ compiled → x.ListsText t project
  subset : targets ⊆ ps

/-- Room is left beside some objects: no file beside an object stands on the way to an output, none is a directory where
one of these objects is concerned, and listings of these that have been left over are texts. -/
structure RoomBeside (g : Graph) (t : FileTree) (project : Path) (compiled : List Path) : Prop where
  aside : g.Aside t project g.outputs
  isFree : ∀ x ∈ g.objects.values, x.path ∈ compiled → ∀ l ∈ x.byproducts t project, ∀ m,
    t.entry? l ≠ some (.directory m)
  texts : ∀ x ∈ g.objects.values, x.path ∈ compiled → x.ListsText t project

theorem roomBeside_iff : g.RoomBeside t project compiled ↔
    (∀ q ∈ g.outputs, ∀ x ∈ g.objects.values, ∀ l ∈ x.byproducts t project, ¬l <:+ (t.place (project / q)).tail) ∧
    (∀ x ∈ g.objects.values, x.path ∈ compiled → ∀ l ∈ x.byproducts t project, ¬t.isDirectoryAt l) ∧
    ∀ x ∈ g.objects.values, x.path ∈ compiled → x.ListsText t project := by
  simp only [isDirectoryAt_eq_true, not_exists]
  exact ⟨fun ⟨ha, hf, ht⟩ ↦ ⟨fun q hq x hx l hl ↦ ha q hq l ⟨x, hx, hl⟩, hf, ht⟩,
    fun ⟨ha, hf, ht⟩ ↦ ⟨fun q hq l ⟨x, hx, hl⟩ ↦ ha q hq x hx l hl, hf, ht⟩⟩

instance (g : Graph) (t : FileTree) (project : Path) (compiled : List Path) :
    Decidable (g.RoomBeside t project compiled) := decidable_of_iff _ roomBeside_iff.symm

/-- Files of an object with room beside it are the object or may be made beside it. -/
theorem RoomBeside.isObject_or_isFree (h : g.RoomBeside t project compiled) {x : ObjectRecord}
    (hx : x ∈ g.objects.values) (hcompiled : x.path ∈ compiled) (hq : q ∈ x.files) :
    q = x.path ∨ t.place (project / q) ∈ g.beside t project ∧
      ∀ m, t.entry? (t.place (project / q)) ≠ some (.directory m) := by
  refine (ObjectRecord.mem_files.mp hq).imp_right fun hbeside ↦ ?_
  have hmem : t.place (project / q) ∈ x.byproducts t project := ObjectRecord.mem_byproducts.mpr ⟨q, hbeside, rfl⟩
  exact ⟨⟨x, hx, hmem⟩, h.isFree x hx hcompiled _ hmem⟩

section

variable (h : g.Advances project rs t u) (ht : t.WellFormed)
  (hfiles : ∀ r ∈ rs, ∃ bytes m, u.stat (project / r) = .ok (.file bytes m)) (haside : g.Aside t project rs)

include h ht hfiles

/-- What is made stands in directories in the end. -/
theorem Advances.exists_directory {r : Path} (hr : r ∈ rs) {l : Location} (hl : l ∈ above (t.place (project / r))) :
    ∃ m, u.entry? l = some (.directory m) := by
  obtain ⟨bytes, m, hstat⟩ := hfiles r hr
  obtain ⟨hlocate, hfile⟩ := stat_eq_ok.mp hstat
  have hw := h.wellFormed ht
  obtain ⟨s, l', m', hplace, hdir⟩ := hw.exists_parent_of_locate hlocate (by simp [hfile])
  rw [← h.place_eq, above, hplace, List.tail_cons] at hl
  exact hw.directory_of_suffix hdir hl

/-- Nothing that is made stands on the way to anything that is. -/
theorem Advances.notMem_above {r r' : Path} (hr : r ∈ rs) (hr' : r' ∈ rs) :
    t.place (project / r) ∉ above (t.place (project / r')) := by
  intro hmem
  obtain ⟨m, hdir⟩ := h.exists_directory ht hfiles hr' hmem
  obtain ⟨bytes, m', hstat⟩ := hfiles r hr
  have hfile := (stat_eq_ok.mp hstat).2
  rw [h.place_eq, hdir] at hfile
  simp at hfile

include haside

/-- No file stood on the way to what is made. -/
theorem Advances.isClear {r : Path} (hr : r ∈ rs) : t.IsClear (t.place (project / r)).tail := by
  intro l hl bytes m hfile
  obtain ⟨m', hdir⟩ := h.exists_directory ht hfiles hr hl
  by_cases hmem : l ∈ places t project rs ∪ g.beside t project
  · rcases hmem with ⟨r', hr', rfl⟩ | hbeside
    · exact h.notMem_above ht hfiles hr' hr hl
    · exact haside r hr l hbeside hl
  · rw [h.entry?_eq_some hmem hfile] at hdir
    simp at hdir

/-- What has been made could be made, and so could be what stands beside it. -/
theorem Advances.creatable_of_made (hps : ∀ q ∈ ps, (project / q).IsStraight ∧ (project / q).IsNameable ∧
      (∃ r ∈ rs, (t.place (project / q)).tail = (t.place (project / r)).tail) ∧
      (q ∈ rs ∨ t.place (project / q) ∈ g.beside t project ∧
        ∀ m, t.entry? (t.place (project / q)) ≠ some (.directory m))) :
    Creatable t project ps ∧ g.Aside t project ps := by
  have habove {q r : Path} (htail : (t.place (project / q)).tail = (t.place (project / r)).tail) :
      above (t.place (project / q)) = above (t.place (project / r)) := congrArg upTo htail
  refine ⟨⟨ht, fun q hq ↦ ?_, fun q hq m hdir ↦ ?_, fun q hq q' hq' hmem ↦ ?_⟩, fun q hq l hl hmem ↦ ?_⟩
  · obtain ⟨hs, hn, ⟨r, hr, htail⟩, -⟩ := hps q hq
    exact ⟨hs, hn, htail ▸ h.isClear ht hfiles haside hr⟩
  · obtain ⟨-, -, -, hmade | ⟨-, hfree⟩⟩ := hps q hq
    · obtain ⟨bytes, m', hstat⟩ := hfiles q hmade
      have hfile := (stat_eq_ok.mp hstat).2
      rw [h.place_eq, h.directory _ m hdir] at hfile
      simp at hfile
    · exact hfree m hdir
  · obtain ⟨-, -, ⟨r, hr, htail⟩, -⟩ := hps q' hq'
    rw [habove htail] at hmem
    obtain ⟨-, -, -, hmade | ⟨hbeside, -⟩⟩ := hps q hq
    · exact h.notMem_above ht hfiles hmade hr hmem
    · exact haside r hr _ hbeside hmem
  · obtain ⟨-, -, ⟨r, hr, htail⟩, -⟩ := hps q hq
    exact haside r hr l hl (habove htail ▸ hmem)

end

namespace Builds

variable {goals order : List Path} {result : BuildResult} {t' mid : FileTree}
  {commands compiles realizes : List (List String)}
  (h : Builds g o goals t result t' commands order as mid compiles realizes) (hg : g.Coherent) (ht : g.KeptApart t o.project) (hdelivers : o.tools.Delivers g o.project)

include h hg ht hdelivers

/-- A build is work on what it makes. -/
theorem advances : g.Advances o.project (as.map (·.object.path) ++ result.realized) t t' := by
  have haction := h.action hg
  have hcompiled := Advances.of_compilesAll hg hdelivers ht.wellFormed haction
    (fun a ha ↦ ht.outputs.isStraight _ (mem_outputs_of_object (hg.compileAction _ a (haction a ha)).2)) h.compilesAll
  obtain ⟨-, hrealized⟩ := Advances.of_realizesAll hg hdelivers (hcompiled.wellFormed ht.wellFormed)
    (fun p hp ↦ ht.outputs.isStraight p (mem_outputs_of_target (h.mem_keys p hp))) h.realizesAll
  exact (hcompiled.mono (List.subset_append_left ..)).trans (hrealized.mono (List.subset_append_right ..))

/-- All that a build has made could be made from the tree in which it began. -/
theorem exists_feasible (htools : o.tools.Obeys g o.project now)
    (hroom : g.RoomBeside t o.project (as.map (·.object.path))) :
    ∃ ps, g.Feasible t o.project (as.map (·.object.path)) result.realized ps := by
  have haction := h.action hg
  have hx {a : CompileAction} (ha : a ∈ as) : g.objects.find? a.object.path = some a.object :=
    (hg.compileAction _ a (haction a ha)).2
  have hs {a : CompileAction} (ha : a ∈ as) : (o.project / a.object.path).IsStraight :=
    ht.outputs.isStraight _ (mem_outputs_of_object (hx ha))
  have hkeys := (h.halfway hg ht htools).isTarget
  have hstat := h.stat_made hg ht htools
  have hlocate {r : Path} (hr : r ∈ as.map (·.object.path) ++ result.realized) :
      ∃ l, t'.locate (o.project / r) = .ok l := by
    obtain ⟨bytes, hstat⟩ := hstat r hr
    exact ⟨_, (stat_eq_ok.mp hstat).1⟩
  have hmade {a : CompileAction} (ha : a ∈ as) : a.object.path ∈ as.map (·.object.path) ++ result.realized :=
    List.mem_append_left _ (List.mem_map_of_mem ha)
  have hout : as.map (·.object.path) ++ result.realized ⊆ g.outputs := by
    refine List.append_subset.mpr ⟨fun r hr ↦ ?_, fun r hr ↦ mem_outputs_of_target (hkeys r hr)⟩
    obtain ⟨a, ha, rfl⟩ := List.mem_map.mp hr
    exact mem_outputs_of_object (hx ha)
  have hroomy : ∀ q ∈ as.flatMap (·.object.files) ++ result.realized,
      (o.project / q).IsStraight ∧ (o.project / q).IsNameable ∧
      (∃ r ∈ as.map (·.object.path) ++ result.realized,
        (t.place (o.project / q)).tail = (t.place (o.project / r)).tail) ∧
      (q ∈ as.map (·.object.path) ++ result.realized ∨ t.place (o.project / q) ∈ g.beside t o.project ∧
        ∀ m, t.entry? (t.place (o.project / q)) ≠ some (.directory m)) := by
    intro q hq
    rcases List.mem_append.mp hq with hq | hq
    · obtain ⟨a, ha, hq⟩ := List.mem_flatMap.mp hq
      have hobject := (hg.object _ _ (hx ha)).2.1
      obtain ⟨l, hl⟩ := hlocate (hmade ha)
      obtain ⟨hsq, htail⟩ := ObjectRecord.tail_of_mem_files t (hs ha) hobject hq
      refine ⟨hsq, hobject.isNameable hl hq, ⟨_, hmade ha, htail⟩, ?_⟩
      exact (hroom.isObject_or_isFree (mem_values_of_object (hx ha)) (List.mem_map_of_mem ha) hq).imp_left
        fun heq : q = a.object.path ↦ heq ▸ hmade ha
    · have hmem := List.mem_append_right (as.map (·.object.path)) hq
      obtain ⟨l, hl⟩ := hlocate hmem
      exact ⟨ht.outputs.isStraight q (hout hmem), isNameable_of_locate hl, ⟨q, hmem, rfl⟩, .inl hmem⟩
  obtain ⟨hcreatable, haside⟩ := (h.advances hg ht hdelivers).creatable_of_made ht.wellFormed
    (fun r hr ↦ (hstat r hr).imp fun _ hfile ↦ ⟨now, hfile⟩) (fun r hr ↦ hroom.aside r (hout hr)) hroomy
  refine ⟨_, hcreatable, haside, fun x hmem hcompiled ↦ ?_, hroom.texts, List.subset_append_right ..⟩
  obtain ⟨a, ha, hpath⟩ := List.mem_map.mp hcompiled
  obtain rfl : a.object = x := Option.some.inj ((hpath ▸ hx ha).symm.trans (hg.find?_of_mem hmem))
  refine ObjectRecord.filesIn_of_subset fun q hq ↦ ?_
  exact List.mem_append_left _ (List.mem_flatMap.mpr ⟨a, ha, hq⟩)

end Builds

/-! ### What is made one after another -/

/-- A build is under way: the stale objects have been compiled, and the targets that are done have been made if a chain
of needed targets leads from them to one that was out of date. The other products can still be made. -/
structure Underway (g : Graph) (project : Path) (now : Timestamp) (t u : FileTree) (as : List CompileAction)
    (ps done : List Path) (result : BuildResult) : Prop where
  halfway : g.Halfway t u project now as result.realized
  advances : g.Advances project ps t u
  compiled_eq : result.compiled = as.map (·.object.path)
  realized_iff : ∀ q, q ∈ result.realized ↔ q ∈ done ∧ g.IsRemade t project (as.map (·.object.path)) q
  there : ∀ q ∈ as.map (·.object.path) ++ result.realized, ¬Missing u project q

/-- A target is provided for: its objects are compiled or there, whatever else it is made from is a target, or compiled,
or there, and it is one of those that can be made if it is to be made. -/
structure Provided (g : Graph) (t : FileTree) (project : Path) (compiled targets : List Path) (p : Path) : Prop where
  objects : ∀ target, g.targets.find? p = some target → ∀ q ∈ target.objects, g.IsJudged t project compiled q
  prereqs : ∀ target, g.targets.find? p = some target → ∀ q ∈ target.prereqs,
    g.targets.contains q ∨ q ∈ compiled ∨ ¬Missing t project q
  remakable : g.IsRemade t project compiled p → p ∈ targets

namespace Underway

variable {result : BuildResult} (h : g.Underway o.project now t u as ps done result) (hg : g.Coherent)
  (ht : g.LaidOut t o.project)

include h hg ht

/-- The inputs of a target whose turn it is are there. -/
theorem not_missing_of_input {target : Target} (htarget : g.targets.find? p = some target)
    (hprovided : g.Provided t o.project (as.map (·.object.path)) targets p) (hneeds : ∀ q, g.Needs p q → q ∈ done) :
    ∀ q ∈ target.objects ++ target.prereqs, ¬Missing u o.project q := by
  intro q hq
  by_cases hmade : q ∈ as.map (·.object.path) ++ result.realized
  · exact h.there q hmade
  obtain ⟨hcompiled, hrealized⟩ := not_or.mp (List.mem_append.not.mp hmade)
  rcases List.mem_append.mp hq with hq | hq
  · obtain hmem | ⟨x, e, hx, he⟩ := hprovided.objects target htarget q hq
    · exact absurd hmem hcompiled
    · have he' := h.halfway.stat_object hg ht.toKeptApart hx hcompiled he
      simp [Missing, time?_eq_some.mpr ⟨e, he', rfl⟩]
  · rw [Missing, h.halfway.time?_prerequisite hg ht (mem_prerequisites htarget hq) hcompiled hrealized]
    rcases hprovided.prereqs target htarget q hq with hcontains | hmem | hthere
    · -- a target that is done and was not made is fresh, and so it is there
      have hdone := hneeds q ⟨target, htarget, hq, hcontains⟩
      obtain ⟨target', htarget'⟩ := Option.isSome_iff_exists.mp hcontains
      exact fun hmissing ↦ hrealized ((h.realized_iff q).mpr ⟨hdone, q, .refl, target', htarget', .inl hmissing⟩)
    · exact absurd hmem hcompiled
    · exact hthere

/-- A target that is made leads on. -/
theorem of_realizes (htools : o.tools.Obeys g o.project now) (hdelivers : o.tools.Delivers g o.project)
    {a : TargetAction} {v : FileTree} {command : List String} (ha : g.targetActions.find? p = some a) (hp : p ∈ ps)
    (hremade : g.IsRemade t o.project (as.map (·.object.path)) p) (hr : Realizes o a u v command) :
    g.Underway o.project now t v as ps (done ++ [p]) { result with realized := result.realized ++ [p] } := by
  have hkey := hg.mem_keys_of_targetAction ha
  have hout := mem_outputs_of_target hkey
  have hs := ht.outputs.isStraight p hout
  have hw := h.halfway.wellFormed ht.toKeptApart
  have hadvances : g.Advances o.project [p] u v := .of_realizes hg hdelivers hw ha hs hr
  refine ⟨h.halfway.realizes hg ht.toKeptApart htools hkey ha hr, h.advances.trans (hadvances.mono (by simpa using hp)),
    h.compiled_eq, fun q ↦ ?_, fun q hq ↦ ?_⟩
  · simp only [List.mem_append, List.mem_singleton, h.realized_iff, or_and_right]
    exact or_congr_right ⟨fun heq ↦ ⟨heq, heq ▸ hremade⟩, And.left⟩
  · obtain ⟨hev, bytes, hstat⟩ := evolves_realizes hg htools hw ha hs hr
    by_cases hqp : q = p
    · simp [Missing, hqp, time?_eq_some.mpr ⟨_, hstat, rfl⟩]
    · have hbefore : q ∈ as.map (·.object.path) ++ result.realized := by simpa [hqp] using hq
      have hqout : q ∈ g.outputs := by
        rcases List.mem_append.mp hbefore with hmem | hmem
        · obtain ⟨a, ha, rfl⟩ := List.mem_map.mp hmem
          exact mem_outputs_of_object (hg.compileAction _ a (h.halfway.action a ha)).2
        · exact mem_outputs_of_target (h.halfway.isTarget q hmem)
      obtain ⟨m, hm⟩ := Option.ne_none_iff_exists'.mp (h.there q hbefore)
      have hoff : u.place (o.project / q) ∉ ({u.place (o.project / p)} : Set Location) := by
        intro (heq : u.place (o.project / q) = u.place (o.project / p))
        rw [h.advances.place_eq, h.advances.place_eq] at heq
        exact hqp (ht.outputs.eq_of_place_eq hqout hout heq)
      simp [Missing, hev.time?_eq_some hoff hm]

omit hg ht in
/-- A target that is kept leads on. -/
theorem of_kept (hkept : ¬g.IsRemade t o.project (as.map (·.object.path)) p) :
    g.Underway o.project now t u as ps (done ++ [p]) { result with upToDate := result.upToDate ++ [p] } where
  halfway := h.halfway
  advances := h.advances
  compiled_eq := h.compiled_eq
  there := h.there
  realized_iff := by
    intro q
    have hnot : q = p → ¬g.IsRemade t o.project (as.map (·.object.path)) q := fun heq ↦ heq ▸ hkept
    rw [h.realized_iff, List.mem_append, List.mem_singleton, or_and_right, or_iff_left fun hmem ↦ hnot hmem.1 hmem.2]

end Underway

section

variable (hg : g.Coherent) (ht : g.LaidOut t o.project) (htools : o.tools.Obeys g o.project now)
  (hdelivers : o.tools.Delivers g o.project) {compiled targets : List Path}
  (hfeasible : g.Feasible t o.project (as.map (·.object.path)) targets ps)

include hg ht htools hdelivers hfeasible

/-- A build that is under way gets on with the next target. -/
theorem Underway.step {result : BuildResult} (h : g.Underway o.project now t u as ps done result)
    (hnew : p ∉ done) (hcontains : g.targets.contains p) (hneeds : ∀ q, g.Needs p q → q ∈ done)
    (hprovided : g.Provided t o.project (as.map (·.object.path)) targets p) :
    ∃ a v result', g.targetActions.find? p = some a ∧ g.Underway o.project now t v as ps (done ++ [p]) result' ∧
      ∀ todo result'' w commands, RealizesAll g o result' todo v result'' w commands →
        ∃ commands', RealizesAll g o result (p :: todo) u result'' w commands' := by
  obtain ⟨a, ha⟩ := hg.exists_targetAction hcontains
  obtain ⟨rfl, target, htarget, hobjects, hprereqs⟩ := hg.targetAction p a ha
  have hkey := hg.mem_keys_of_targetAction ha
  have hinputs : ∀ q ∈ a.inputs, ¬Missing u o.project q := by
    rw [TargetAction.inputs, hobjects, hprereqs]
    exact h.not_missing_of_input hg ht htarget hprovided hneeds
  have hcreatable : Creatable u o.project ps :=
    h.advances.creatable (List.Subset.refl _) hfeasible.aside hfeasible.toCreatable
  -- a target that is missing is one of those that can be made, so that it can be looked up
  have hself : ∃ made?, modified? u o.project a.target = .ok made? := by
    by_cases hmissing : Missing t o.project a.target
    · have hmem := hfeasible.subset (hprovided.remakable ⟨a.target, .refl, target, htarget, .inl hmissing⟩)
      exact exists_modified?_of_opens hcreatable.wellFormed (hcreatable.opens _ hmem)
    · obtain ⟨m, hm⟩ := Option.ne_none_iff_exists'.mp hmissing
      refine ⟨_, modified?_of_time? ((h.halfway.time?_target hg ht hkey fun hmem ↦ ?_).trans hm)⟩
      exact hnew ((h.realized_iff _).mp hmem).1
  obtain ⟨made?, hmade⟩ := hself
  obtain ⟨b, hb⟩ := targetIsStale_isOk hmade hinputs (result.compiled ++ result.realized)
  have hb' := hb
  rw [h.compiled_eq] at hb'
  have hiff :=
    targetIsStale_iff h.halfway hg ht htarget (hprovided.objects target htarget) hneeds h.realized_iff hnew ha hb'
  cases b with
  | true =>
    have hremade := hiff.mp rfl
    have hmem := hfeasible.subset (hprovided.remakable hremade)
    obtain ⟨v, command, hrealizes, -⟩ :=
      exists_realizes hg hdelivers hcreatable (h.advances.aside hfeasible.aside) ha hmem
    exact ⟨a, v, _, ha, h.of_realizes hg ht htools hdelivers ha hmem hremade hrealizes,
      fun todo result'' w commands hrest ↦ ⟨_, .made ha hb hrealizes hrest⟩⟩
  | false =>
    exact ⟨a, u, _, ha, h.of_kept (hiff.not.mp Bool.false_ne_true),
      fun todo result'' w commands hrest ↦ ⟨_, .kept ha hb hrest⟩⟩

/-- A build that is under way comes to its end. -/
theorem Underway.realizesAll {result : BuildResult} (h : g.Underway o.project now t u as ps done result)
    (hready : g.ReadyOrder done todo)
    (hprovided : ∀ p ∈ todo, g.Provided t o.project (as.map (·.object.path)) targets p) :
    ∃ result' v commands, RealizesAll g o result todo u result' v commands := by
  induction todo generalizing done u result with
  | nil => exact ⟨result, u, [], .done⟩
  | cons p todo ih =>
    obtain ⟨hnew, hcontains, hneeds, hrest⟩ := hready
    rw [List.forall_mem_cons] at hprovided
    obtain ⟨a, u₁, result₁, ha, hnext, hcons⟩ := h.step hg ht htools hdelivers hfeasible hnew hcontains hneeds
      hprovided.1
    obtain ⟨result', v, commands, hrealizes⟩ := ih hnext hrest hprovided.2
    obtain ⟨commands', hrealizes⟩ := hcons todo result' v commands hrealizes
    exact ⟨result', v, commands', hrealizes⟩

/-- Objects can be compiled and targets gone through if what is to be made can be made and the targets are provided
for. -/
theorem exists_realizesAll_of_feasible {order : List Path}
    (haction : ∀ a ∈ as, g.compileActions.find? a.object.path = some a) (hnodup : (as.map (·.object.path)).Nodup)
    (hready : g.ReadyOrder [] order)
    (hprovided : ∀ p ∈ order, g.Provided t o.project (as.map (·.object.path)) targets p) :
    ∃ mid compiles result v realizes, CompilesAll o as t mid compiles ∧
      RealizesAll g o { compiled := as.map (·.object.path) } order mid result v realizes := by
  have hx {a : CompileAction} (ha : a ∈ as) : g.objects.find? a.object.path = some a.object :=
    (hg.compileAction _ a (haction a ha)).2
  have hfiles (a : CompileAction) (ha : a ∈ as) : a.object.FilesIn ps :=
    hfeasible.files _ (mem_values_of_object (hx ha)) (List.mem_map_of_mem ha)
  have htexts (a : CompileAction) (ha : a ∈ as) : a.object.ListsText t o.project :=
    hfeasible.texts _ (mem_values_of_object (hx ha)) (List.mem_map_of_mem ha)
  have hoff (a : CompileAction) (ha : a ∈ as) : t.place (o.project / a.object.path) ∉ g.beside t o.project := by
    rintro ⟨x, hmem, hbeside⟩
    exact ht.outputs.object_notBeside hg (hx ha) (hg.find?_of_mem hmem) hbeside
  obtain ⟨mid, compiles, hcompiles, hadvances, -⟩ :=
    exists_compilesAll hg hdelivers hfeasible.toCreatable hfeasible.aside haction hfiles htexts hoff
  have htime := time?_of_compilesAll hg ht.toKeptApart htools hcompiles ht.wellFormed rfl haction hnodup
  have hunderway : g.Underway o.project now t mid as ps [] { compiled := as.map (·.object.path) } :=
    { halfway := .compilesAll hg ht.toKeptApart htools haction hcompiles
      advances := hadvances.mono fun q hq ↦ by
        obtain ⟨a, ha, rfl⟩ := List.mem_map.mp hq
        exact (hfiles a ha).1
      compiled_eq := rfl
      realized_iff := by simp
      there := by
        intro q hq
        rw [List.append_nil] at hq
        obtain ⟨a, ha, rfl⟩ := List.mem_map.mp hq
        simp [Missing, htime a ha] }
  obtain ⟨result, v, realizes, hrealizes⟩ := hunderway.realizesAll hg ht htools hdelivers hfeasible hready hprovided
  exact ⟨mid, compiles, result, v, realizes, hcompiles, hrealizes⟩

end

/-- Objects that have been judged are compiled, or they are there. -/
theorem Judges.isJudged {qs : List Path} (h : Judges g t project qs as) (hg : g.Coherent) (hq : q ∈ qs) :
    g.IsJudged t project (as.map (·.object.path)) q := by
  obtain ⟨hstale, -, hjudged⟩ := h.eq_filter hg
  by_cases hcompiled : q ∈ as.map (·.object.path)
  · exact .inl hcompiled
  · obtain ⟨a, ha, v, hv⟩ := hjudged q hq
    obtain ⟨rfl, hobject⟩ := hg.compileAction q a ha
    have hfresh : ¬g.IsStale t project a.object := by
      intro hstale'
      refine hcompiled (hstale ▸ List.mem_filter.mpr ⟨hq, ?_⟩)
      simpa using ⟨_, hobject, hstale'⟩
    obtain ⟨m, hm, -⟩ := exists_of_not_isStale hfresh
    obtain ⟨e, he, -⟩ := time?_eq_some.mp hm
    exact .inr ⟨a.object, e, hobject, he⟩

end Graph

end ModuleBuild
