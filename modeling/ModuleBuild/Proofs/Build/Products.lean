import Mathlib.Logic.Relation
import ModuleBuild.Proofs.Build.Course
import ModuleBuild.Proofs.Build.Layout

/-!
# Builds leave nothing but products

What a build does to the tree is made of small steps (`Step`): directories are seen to, commands are started,
descriptors are written and listings removed. A build takes such steps in one order, and may be broken off after
each of them; builds that compile side by side take them in others. With tools that keep to the files of a graph
no step touches a file that is not one of the products (`within_step`), and so no build does, in whatever order and
wherever it stops (`within_passes`, `passes_build`).
-/

namespace ModuleBuild

namespace Graph

open FileTree RunM

variable {g : Graph} {o : BuildOptions} {ends : Response → Prop} {project : Path} {t t₁ t' : FileTree} {ps : List Path}
  {commands : List (List String)} {command : List String} {e : Failure}

theorem objectFiles_eq_ok {x : ObjectRecord} {qs : List Path} :
    objectFiles x = .ok qs ↔
      ∃ d l, x.dependencies = .ok d ∧ x.listing = .ok l ∧ qs = [x.path, d, l] := by
  unfold objectFiles
  simp only [bind_eq_ok, pure_eq_ok, Except.ok.injEq]
  constructor
  · rintro ⟨d, hd, l, hl, rfl⟩
    exact ⟨d, l, hd, hl, rfl⟩
  · rintro ⟨d, l, hd, hl, rfl⟩
    exact ⟨d, hd, l, hl, rfl⟩

theorem products_eq_ok :
    g.products = .ok ps ↔
      ∃ files, g.objects.values.mapM objectFiles = .ok files ∧ ps = g.targets.keys ++ files.flatten := by
  unfold products
  simp only [bind_eq_ok, pure_eq_ok, Except.ok.injEq]
  exact exists_congr fun files ↦ and_congr_right fun _ ↦ eq_comm

namespace Coherent

variable (hg : g.Coherent)

include hg

theorem exists_objectFiles {x : ObjectRecord} (hx : x ∈ g.objects.values) :
    ∃ d l, x.dependencies = .ok d ∧ x.listing = .ok l ∧ objectFiles x = .ok [x.path, d, l] := by
  have hobject := (hg.object _ _ (hg.find?_of_mem hx)).2.1
  obtain ⟨d, hd⟩ := hobject.sibling_isOk .dependencies
  obtain ⟨l, hl⟩ := hobject.sibling_isOk .listing
  exact ⟨d, l, hd, hl, objectFiles_eq_ok.mpr ⟨d, l, hd, hl, rfl⟩⟩

/-- The products of a coherent graph can be told. -/
theorem exists_products : ∃ ps, g.products = .ok ps := by
  obtain ⟨files, hfiles⟩ := exists_mapM fun x hx ↦
    have ⟨d, l, _, _, h⟩ := hg.exists_objectFiles hx
    ⟨[x.path, d, l], h⟩
  exact ⟨_, products_eq_ok.mpr ⟨files, hfiles, rfl⟩⟩

/-- They are the targets, the objects and the files beside these. -/
theorem mem_products (h : g.products = .ok ps) {q : Path} :
    q ∈ ps ↔ q ∈ g.targets.keys ∨
      ∃ x ∈ g.objects.values, q = x.path ∨ x.dependencies = .ok q ∨ x.listing = .ok q := by
  obtain ⟨files, hfiles, rfl⟩ := products_eq_ok.mp h
  rw [List.mem_append, List.mem_flatten]
  refine or_congr_right ⟨?_, ?_⟩
  · rintro ⟨qs, hqs, hq⟩
    obtain ⟨x, hx, hqs⟩ := (mem_of_mapM hfiles).mp hqs
    obtain ⟨d, l, hd, hl, rfl⟩ := objectFiles_eq_ok.mp hqs
    refine ⟨x, hx, ?_⟩
    simpa [hd, hl, eq_comm] using hq
  · rintro ⟨x, hx, hq⟩
    obtain ⟨d, l, hd, hl, hqs⟩ := hg.exists_objectFiles hx
    refine ⟨_, (mem_of_mapM hfiles).mpr ⟨x, hx, hqs⟩, ?_⟩
    simpa [hd, hl, eq_comm] using hq

/-- No double dot leads to a product if none leads to an output. -/
theorem isStraight_of_mem_products (h : g.products = .ok ps) (hs : ∀ q ∈ g.outputs, q.IsStraight) :
    ∀ q ∈ ps, q.IsStraight := by
  intro q hq
  rcases (hg.mem_products h).mp hq with hq | ⟨x, hx, hq⟩
  · exact hs q (mem_outputs_of_target hq)
  · have hxs : (Path.here / x.path).IsStraight := by
      rw [Path.here_join]
      exact hs _ (mem_outputs_of_object (hg.find?_of_mem hx))
    rcases hq with rfl | hq | hq
    · rwa [Path.here_join] at hxs
    · exact Path.here_join q ▸ ObjectRecord.isStraight_sibling hxs hq Suffix.text_dependencies (by decide)
    · exact Path.here_join q ▸ ObjectRecord.isStraight_sibling hxs hq Suffix.text_listing (by decide)

end Coherent

/-- The locations at which paths of the project can be looked up. -/
def reach (t : FileTree) (project : Path) (ps : List Path) : Set Location :=
  { l | ∃ q ∈ ps, t.locate (project / q) = .ok l }

/-- What is done to a tree keeps to some paths of the project: but for directories that are made nothing changes
elsewhere. -/
def Within (project : Path) (ps : List Path) (t t' : FileTree) : Prop :=
  t.Touches t' (reach t' project ps) Set.univ

theorem Within.refl (project : Path) (ps : List Path) (t : FileTree) : Within project ps t t :=
  Touches.refl ..

theorem Within.trans (h : Within project ps t t₁) (h' : Within project ps t₁ t') : Within project ps t t' := by
  have hreach : reach t₁ project ps ⊆ reach t' project ps := fun l ⟨q, hq, hl⟩ ↦ ⟨q, hq, h'.locate_eq_ok hl⟩
  exact Touches.trans (h.mono hreach (Set.Subset.refl _)) h'

/-- What is written where paths lead keeps to them. -/
theorem within_of_touches {written : Set Location} (h : t.Touches t' written ∅)
    (hwritten : ∀ l ∈ written, l ∈ reach t project ps) : Within project ps t t' := by
  refine h.mono (fun l hl ↦ ?_) (Set.empty_subset _)
  obtain ⟨q, hq, hlocate⟩ := hwritten l hl
  exact ⟨q, hq, h.locate_eq_ok hlocate⟩

/-! ### Steps -/

/-- One step of a build: one of the directories that outputs stand in is seen to, a command is started, which comes to
one of some ends, bytes are written as the descriptor of an object, or its listing is removed. -/
inductive Step (g : Graph) (o : BuildOptions) (ends : Response → Prop) (t : FileTree) : FileTree → Prop where
  | directory {q p : Path} (output : q ∈ g.outputs) (anchor : p.anchor = (o.project / q).anchor)
      (above : p.segments <+: (o.project / q).segments) : Step g o ends t (t.ensureDirectory p).1
  | compiler {a : CompileAction} {command : List String} {t' : FileTree} {r : Response}
      (action : g.compileActions.find? a.object.path = some a) (words : a.command.words? = some command)
      (tool : o.tools t o.project command = (t', r)) (ending : ends r) : Step g o ends t t'
  | descriptor {x : ObjectRecord} {d : Path} {bytes : ByteArray} {t' : FileTree}
      (object : x ∈ g.objects.values) (dependencies : x.dependencies = .ok d)
      (write : t.write (o.project / d) bytes t.clock = .ok t') : Step g o ends t t'
  | listing {x : ObjectRecord} {l : Path} {t' : FileTree} (object : x ∈ g.objects.values)
      (listing : x.listing = .ok l) (remove : t.remove (o.project / l) = .ok t') : Step g o ends t t'
  | maker {a : TargetAction} {command : List String} {t' : FileTree} {r : Response}
      (action : g.targetActions.find? a.target = some a) (words : a.command.words? = some command)
      (tool : o.tools t o.project command = (t', r)) (ending : ends r) : Step g o ends t t'

/-- The second tree can be come to from the first by steps of a build, in which commands come to such ends. -/
def Passes (g : Graph) (o : BuildOptions) (ends : Response → Prop) : FileTree → FileTree → Prop :=
  Relation.ReflTransGen (g.Step o ends)

section

variable (hg : g.Coherent) (hproducts : g.products = .ok ps) (htools : o.tools.Confined g o.project)

include hg hproducts htools

/-- A step of a build keeps to the products. -/
theorem within_step (ht : t.WellFormed) (h : g.Step o ends t t') : Within o.project ps t t' := by
  have hmem {x : ObjectRecord} {q : Path} (hx : x ∈ g.objects.values)
      (hq : q = x.path ∨ x.dependencies = .ok q ∨ x.listing = .ok q) : q ∈ ps :=
    (hg.mem_products hproducts).mpr (.inr ⟨x, hx, hq⟩)
  cases h with
  | @directory q p output _ _ =>
    exact (evolves_ensureDirectory_fst ht t.clock p).1.toTouches.mono (Set.empty_subset _) (Set.subset_univ _)
  | @compiler a command _ r action words tool _ =>
    have hobject := mem_values_of_object (hg.compileAction _ a action).2
    obtain ⟨qs, hqs, halters⟩ := htools.compile _ a command t _ _ action words tool
    apply within_of_touches halters.touches
    rintro l ⟨q, hq, rfl⟩
    have hlocate := (halters.admits q hq).1
    rcases hqs q hq with rfl | ⟨listing, hl, rfl⟩
    · exact ⟨_, hmem hobject (.inl rfl), hlocate⟩
    · exact ⟨_, hmem hobject (.inr (.inr hl)), hlocate⟩
  | @descriptor x d bytes _ object dependencies write =>
    obtain ⟨hev, -⟩ := evolves_write ht write (.inl rfl : _ ∨ _ = t.clock)
    obtain ⟨l, hlocate, -⟩ := write_eq_ok.mp write
    apply within_of_touches hev.toTouches
    rintro _ rfl
    exact ⟨d, hmem object (.inr (.inl dependencies)), eq_place_of_locate hlocate ▸ hlocate⟩
  | @listing x l _ object listing remove =>
    obtain ⟨l', bytes, m, hlocate, -⟩ := remove_eq_ok.mp remove
    apply within_of_touches (evolves_remove t.clock remove).1.toTouches
    rintro _ rfl
    exact ⟨l, hmem object (.inr (.inr listing)), eq_place_of_locate hlocate ▸ hlocate⟩
  | @maker a command _ r action words tool _ =>
    obtain ⟨qs, hqs, halters⟩ := htools.realize _ a command t _ _ action words tool
    apply within_of_touches halters.touches
    rintro l ⟨q, hq, rfl⟩
    have hlocate := (halters.admits q hq).1
    obtain rfl := hqs q hq
    exact ⟨_, (hg.mem_products hproducts).mpr (.inl (hg.mem_keys_of_targetAction action)), hlocate⟩

/-- Steps of a build keep to the products, however many they are. -/
theorem within_passes (ht : t.WellFormed) (h : g.Passes o ends t t') : Within o.project ps t t' := by
  induction h with
  | refl => exact .refl ..
  | tail _ step ih => exact ih.trans (within_step hg hproducts htools (ih.wellFormed ht) step)

end

/-! ### Builds are made of steps -/

namespace Passes

theorem refl (t : FileTree) : g.Passes o ends t t := Relation.ReflTransGen.refl

theorem of_step (h : g.Step o ends t t') : g.Passes o ends t t' := Relation.ReflTransGen.single h

theorem trans (h : g.Passes o ends t t₁) (h' : g.Passes o ends t₁ t') : g.Passes o ends t t' :=
  Relation.ReflTransGen.trans h h'

end Passes

/-- Seeing to the directory of an output is a step. -/
theorem passes_ensureParent {q : Path} (hq : q ∈ g.outputs) (t : FileTree) :
    g.Passes o ends t (t.ensureDirectory (o.project / q).parent).1 :=
  .of_step (.directory hq rfl (List.dropLast_prefix _))

/-- Finishing an object takes two steps, or none. -/
theorem passes_finalize {x : ObjectRecord} (hx : x ∈ g.objects.values) {answer : Except Failure (Option Path)}
    (h : Listing.finalize t o.project x = (t', answer)) : g.Passes o ends t t' := by
  cases answer with
  | error e =>
    rcases Listing.finalize_eq_error h with rfl | ⟨d, text, hd, hwrite⟩
    · exact .refl _
    · exact .of_step (.descriptor hx hd hwrite)
  | ok d? =>
    obtain ⟨l, hl, ⟨-, rfl, -⟩ | ⟨-, d, text, t₁, -, hd, hwrite, hremove, -⟩⟩ := Listing.finalize_eq_ok.mp h
    · exact .refl _
    · exact .trans (.of_step (.descriptor hx hd hwrite)) (.of_step (.listing hx hl hremove))

section Compiles

variable {a : CompileAction} (ha : g.compileActions.find? a.object.path = some a)

include ha

theorem passes_compiler {r : Response} (hw : a.command.words? = some command)
    (h : o.tools t o.project command = (t', r)) (hends : ends r) : g.Passes o ends t t' :=
  .of_step (.compiler ha hw h hends)

variable (hg : g.Coherent)

include hg

theorem passes_ensureObject {answer : Except FileError Unit}
    (h : t.ensureDirectory (o.project / a.object.path).parent = (t', answer)) : g.Passes o ends t t' := by
  have hparent : g.Passes o ends t _ := passes_ensureParent (mem_outputs_of_object (hg.compileAction _ a ha).2) t
  rwa [h] at hparent

theorem passes_compiles (hends : ∀ r : Response, r.IsSuccess → ends r) (h : Compiles o a t t' command) :
    g.Passes o ends t t' := by
  obtain ⟨t₁, hparent, t₂, r, d?, hw, htool, hr, hfinalize⟩ := h
  have hobject := mem_values_of_object (hg.compileAction _ a ha).2
  exact ((passes_ensureObject ha hg hparent).trans (passes_compiler ha hw htool (hends r hr))).trans
    (passes_finalize hobject hfinalize)

theorem passes_compileFails (hends : ∀ r, ends r) (h : CompileFails o a t t' e commands) :
    g.Passes o ends t t' := by
  cases h with
  | directory hparent => exact passes_ensureObject ha hg hparent
  | command hparent performs =>
    have hdirectory : g.Passes o ends t _ := passes_ensureObject ha hg hparent
    cases performs with
    | program noWords => exact hdirectory
    | command hw htool fails => exact hdirectory.trans (passes_compiler ha hw htool (hends _))
  | listing hparent hw htool succeeds hfinalize =>
    have hobject := mem_values_of_object (hg.compileAction _ a ha).2
    exact ((passes_ensureObject ha hg hparent).trans (passes_compiler ha hw htool (hends _))).trans
      (passes_finalize hobject hfinalize)

end Compiles

section Realizes

variable {a : TargetAction} (ha : g.targetActions.find? a.target = some a)

include ha

theorem passes_maker {r : Response} (hw : a.command.words? = some command)
    (h : o.tools t o.project command = (t', r)) (hends : ends r) : g.Passes o ends t t' :=
  .of_step (.maker ha hw h hends)

variable (hg : g.Coherent)

include hg

theorem passes_ensureTarget {answer : Except FileError Unit}
    (h : t.ensureDirectory (o.project / a.target).parent = (t', answer)) : g.Passes o ends t t' := by
  have hparent : g.Passes o ends t _ := passes_ensureParent (mem_outputs_of_target (hg.mem_keys_of_targetAction ha)) t
  rwa [h] at hparent

theorem passes_realizes (hends : ∀ r : Response, r.IsSuccess → ends r) (h : Realizes o a t t' command) :
    g.Passes o ends t t' := by
  obtain ⟨t₁, hparent, r, hw, htool, hr⟩ := h
  exact (passes_ensureTarget ha hg hparent).trans (passes_maker ha hw htool (hends r hr))

theorem passes_realizeFails (hends : ∀ r, ends r) (h : RealizeFails o a t t' e commands) :
    g.Passes o ends t t' := by
  cases h with
  | directory hparent => exact passes_ensureTarget ha hg hparent
  | command hparent performs =>
    have hdirectory : g.Passes o ends t _ := passes_ensureTarget ha hg hparent
    cases performs with
    | program noWords => exact hdirectory
    | command hw htool fails => exact hdirectory.trans (passes_maker ha hw htool (hends _))

end Realizes

/-- Tasks that are carried out are made of steps. -/
theorem passes_carries (hg : g.Coherent) (hends : ∀ r, ends r) {tasks : List Task}
    (hcompile : ∀ a, .compile a ∈ tasks → g.compileActions.find? a.object.path = some a)
    (hrealize : ∀ a, .realize a ∈ tasks → g.targetActions.find? a.target = some a)
    (h : Carries o tasks t t' commands) : g.Passes o ends t t' := by
  induction h with
  | done => exact .refl _
  | succeeds first rest ih =>
    next task tasks t t₁ t' command commands =>
    have hfirst : g.Passes o ends t t₁ := by
      cases task with
      | compile a => exact passes_compiles (hcompile a List.mem_cons_self) hg (fun r _ ↦ hends r) first
      | realize a => exact passes_realizes (hrealize a List.mem_cons_self) hg (fun r _ ↦ hends r) first
    apply hfirst.trans
    exact ih (fun a ha ↦ hcompile a (List.mem_cons_of_mem _ ha)) fun a ha ↦
      hrealize a (List.mem_cons_of_mem _ ha)
  | fails last =>
    next task t t' e commands =>
    cases task with
    | compile a => exact passes_compileFails (hcompile a List.mem_cons_self) hg hends last
    | realize a => exact passes_realizeFails (hrealize a List.mem_cons_self) hg hends last

/-- A build is made of steps, whatever it comes to. -/
theorem passes_build (hg : g.Coherent) {goals? : Option (List Path)} {run run' : Run}
    {answer : Except Failure BuildResult} (h : (g.build o goals?).run.run run = (answer, run')) (hends : ∀ r, ends r) :
    g.Passes o ends run.tree run'.tree := by
  obtain ⟨commands, -, ⟨-, htree, -⟩ | ⟨order, stale, done, hcourse⟩⟩ := exists_course h
  · rw [htree]
    exact .refl _
  · have htasks := hcourse.isPrefix.subset
    apply passes_carries hg hends ?_ ?_ hcourse.carries
    · intro a ha
      have hstale : a ∈ stale := by simpa [tasks] using htasks ha
      exact (hcourse.judges.eq_filter hg).2.1 a hstale
    · intro a ha
      have hreached : a ∈ g.reached o order stale run.tree := by simpa [tasks] using htasks ha
      exact (reached_sublist hg ..).2 a hreached

end Graph

end ModuleBuild
