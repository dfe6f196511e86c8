import Mathlib.Data.Set.Insert
import ModuleBuild.Proofs.Build.Commands
import ModuleBuild.Proofs.Build.Permuting
import ModuleBuild.Proofs.Build.Products
import ModuleBuild.Proofs.FileTree.Clearing

/-!
# Cleaning undoes building

Cleaning removes the files at the products of a graph, each once, and fails only where a path cannot be looked up
(`runs_removeAll`, `fails_removeAll`). Since builds leave nothing but products, and the descriptors of modules are
none of these, a project that is cleaned after a build holds the files that it held before the build
(`clean_undoes_build`).
-/

namespace ModuleBuild

namespace Graph

open FileTree RunM

variable {g : Graph} {o : BuildOptions} {project : Path} {t t' u : FileTree} {p q : Path} {ps : List Path}
  {removed : List Path}

/-- Those of some paths of the project at which files are found. Of paths that lead to one file only the first
counts. -/
def standing (t : FileTree) (project : Path) (ps : List Path) : List Path :=
  (ps.filter fun q ↦ t.hasFile (project / q)).eraseDupsBy fun q q' ↦
    decide (t.place (project / q) = t.place (project / q'))

/-- The locations of the files that are found at some paths of the project. -/
def filesAt (t : FileTree) (project : Path) (ps : List Path) : Set Location :=
  { l | ∃ q ∈ ps, t.hasFile (project / q) = true ∧ l = t.place (project / q) }

theorem standing_cons_of_not_hasFile (h : t.hasFile (project / p) = false) (ps : List Path) :
    standing t project (p :: ps) = standing t project ps := by
  rw [standing, List.filter_cons_of_neg (by simp [h]), standing]

/-- A file that is found counts, and then those that are found without it. -/
theorem standing_cons_of_hasFile (h : t.hasFile (project / p) = true)
    (hu : t.Clears u {t.place (project / p)}) (ps : List Path) :
    standing t project (p :: ps) = p :: standing u project ps := by
  have hfile (q : Path) : u.hasFile (project / q) =
      (decide ¬t.place (project / q) = t.place (project / p) && t.hasFile (project / q)) := by
    rw [Bool.eq_iff_iff, hu.hasFile_iff, Set.mem_singleton_iff]
    simp [and_comm]
  rw [standing, List.filter_cons_of_pos (by simpa using h), List.eraseDupsBy_cons, List.filter_filter, standing]
  simp only [hfile, FileTree.place_congr hu.current, decide_eq_false_iff_not]

/-! ### Removing files -/

/-- The removal of one of several paths. -/
def removal (file : Path) (t : FileTree) : FileTree × Except Failure Unit :=
  match t.remove file with
  | .ok t => (t, .ok ())
  | .error e => (t, .error (.file e))

/-- A file that is found can be removed. -/
theorem exists_removal {file : Path} (h : t.hasFile file = true) :
    ∃ u, removal file t = (u, .ok ()) ∧ t.Clears u {t.place file} := by
  obtain ⟨bytes, m, hstat⟩ := hasFile_eq_true.mp h
  obtain ⟨hlocate, hfile⟩ := FileTree.stat_eq_ok.mp hstat
  have hremove : t.remove file = .ok (t.erase (t.place file)) :=
    remove_eq_ok.mpr ⟨_, bytes, m, hlocate, hfile, rfl⟩
  exact ⟨_, by rw [removal, hremove], clears_of_remove hremove⟩

/-- A path at which no file is found is passed over. -/
theorem runs_removeAll_of_not_hasFile {answer : Except Failure (List Path)}
    (hlookup : t.stat (o.project / p) ≠ .error .nameTooLong) (h : t.hasFile (o.project / p) = false)
    (hrest : Runs (removeAll o removed ps) t [] answer u) :
    Runs (removeAll o removed (p :: ps)) t [] answer u := by
  have hask := runs_ask (fun t ↦ (t.isFile (o.project / p)).mapError .file) t
  rw [isFile_eq_hasFile hlookup, h] at hask
  rw [removeAll]
  exact hask.silent_bind hrest

/-- A file that is found is removed, and then others. -/
theorem runs_removeAll_of_hasFile {answer : Except Failure (List Path)}
    (hlookup : t.stat (o.project / p) ≠ .error .nameTooLong) (h : t.hasFile (o.project / p) = true)
    (hremoval : removal (o.project / p) t = (t', .ok ()))
    (hrest : Runs (removeAll o (removed ++ [p]) ps) t' [] answer u) :
    Runs (removeAll o removed (p :: ps)) t [] answer u := by
  have hask := runs_ask (fun t ↦ (t.isFile (o.project / p)).mapError .file) t
  rw [isFile_eq_hasFile hlookup, h] at hask
  have hchange := runs_change (removal (o.project / p)) t
  rw [hremoval] at hchange
  rw [removeAll]
  refine hask.silent_bind (hchange.silent_bind ?_)
  dsimp only
  split
  · exact (runs_print _ t').silent_bind hrest
  · exact hrest

/-- The files that are found are removed, one after another. -/
theorem runs_removeAll (removed : List Path)
    (hlookup : ∀ q ∈ ps, t.stat (o.project / q) ≠ .error .nameTooLong) :
    ∃ u, Runs (removeAll o removed ps) t [] (.ok (removed ++ standing t o.project ps)) u ∧
      t.Clears u (filesAt t o.project ps) := by
  induction ps generalizing t removed with
  | nil =>
    refine ⟨t, ?_, ?_⟩
    · rw [show standing t o.project [] = [] from rfl, List.append_nil]
      exact runs_pure removed t
    · rw [show filesAt t o.project [] = ∅ by simp [filesAt]]
      exact .refl t
  | cons p ps ih =>
    have hp := hlookup p List.mem_cons_self
    have hps : ∀ q ∈ ps, t.stat (o.project / q) ≠ .error .nameTooLong :=
      fun q hq ↦ hlookup q (List.mem_cons_of_mem _ hq)
    cases hfile : t.hasFile (o.project / p) with
    | false =>
      obtain ⟨u, hruns, hclears⟩ := ih removed hps
      refine ⟨u, ?_, ?_⟩
      · rw [standing_cons_of_not_hasFile hfile]
        exact runs_removeAll_of_not_hasFile hp hfile hruns
      · rw [show filesAt t o.project (p :: ps) = filesAt t o.project ps by simp [filesAt, hfile]]
        exact hclears
    | true =>
      obtain ⟨t₁, hremoval, hfirst⟩ := exists_removal hfile
      obtain ⟨u, hruns, hrest⟩ := ih (removed ++ [p]) fun q hq ↦ hfirst.stat_ne_nameTooLong (hps q hq)
      refine ⟨u, ?_, ?_⟩
      · rw [standing_cons_of_hasFile hfile hfirst, List.append_cons]
        exact runs_removeAll_of_hasFile hp hfile hremoval hruns
      · have hunion : filesAt t o.project (p :: ps) =
            {t.place (o.project / p)} ∪ filesAt t₁ o.project ps := by
          ext l
          simp only [filesAt, List.exists_mem_cons_iff, hfirst.hasFile_iff, FileTree.place_congr hfirst.current,
            Set.mem_ofPred_eq, Set.mem_union, Set.mem_singleton_iff, hfile, true_and]
          constructor
          · rintro (rfl | ⟨q, hq, hq', rfl⟩)
            · exact .inl rfl
            · by_cases hplace : t.place (o.project / q) = t.place (o.project / p)
              · exact .inl hplace
              · exact .inr ⟨q, hq, ⟨hq', hplace⟩, rfl⟩
          · rintro (rfl | ⟨q, hq, ⟨hq', -⟩, rfl⟩)
            · exact .inl rfl
            · exact .inr ⟨q, hq, hq', rfl⟩
        rw [hunion]
        exact hfirst.trans hrest

/-- A path that cannot be looked up ends the removal at once. -/
theorem runs_removeAll_of_nameTooLong (removed : List Path)
    (h : t.stat (o.project / p) = .error .nameTooLong) (ps : List Path) :
    Runs (removeAll o removed (p :: ps)) t [] (.error (.file ⟨.nameTooLong, o.project / p⟩)) t := by
  have hrefused : t.isFile (o.project / p) = .error ⟨.nameTooLong, o.project / p⟩ := by
    simp [isFile, probe, h, Except.map]
  have hask := runs_ask (fun t ↦ (t.isFile (o.project / p)).mapError .file) t
  rw [hrefused] at hask
  rw [removeAll]
  exact hask.bind_error

/-- Removal fails if one of the paths cannot be looked up. -/
theorem fails_removeAll (removed : List Path) (h : ∃ q ∈ ps, t.stat (o.project / q) = .error .nameTooLong) :
    ∃ (e : FileError) (u : FileTree), Runs (removeAll o removed ps) t [] (.error (.file e)) u := by
  induction ps generalizing t removed with
  | nil => simp at h
  | cons p ps ih =>
    by_cases hp : t.stat (o.project / p) = .error .nameTooLong
    · exact ⟨_, t, runs_removeAll_of_nameTooLong removed hp ps⟩
    · have hps : ∃ q ∈ ps, t.stat (o.project / q) = .error .nameTooLong := by
        obtain ⟨q, hq, hlong⟩ := h
        rcases List.mem_cons.mp hq with rfl | hq
        · exact absurd hlong hp
        · exact ⟨q, hq, hlong⟩
      cases hfile : t.hasFile (o.project / p) with
      | false =>
        obtain ⟨e, u, hruns⟩ := ih removed hps
        exact ⟨e, u, runs_removeAll_of_not_hasFile hp hfile hruns⟩
      | true =>
        obtain ⟨t₁, hremoval, hfirst⟩ := exists_removal hfile
        obtain ⟨q, hq, hlong⟩ := hps
        have hlong' : t₁.stat (o.project / q) = .error .nameTooLong :=
          stat_nameTooLong hfirst.current.symm (fun _ _ hm ↦ hfirst.directory_iff.mpr hm) hlong
        obtain ⟨e, u, hruns⟩ := ih (removed ++ [p]) ⟨q, hq, hlong'⟩
        exact ⟨e, u, runs_removeAll_of_hasFile hp hfile hremoval hruns⟩

/-- Where no files are found nothing is removed. -/
theorem runs_removeAll_of_no_files (removed : List Path)
    (hlookup : ∀ q ∈ ps, t.stat (o.project / q) ≠ .error .nameTooLong)
    (h : ∀ q ∈ ps, t.hasFile (o.project / q) = false) : Runs (removeAll o removed ps) t [] (.ok removed) t := by
  induction ps with
  | nil => exact runs_pure removed t
  | cons p ps ih =>
    apply runs_removeAll_of_not_hasFile (hlookup p List.mem_cons_self) (h p List.mem_cons_self)
    exact ih (fun q hq ↦ hlookup q (List.mem_cons_of_mem _ hq)) fun q hq ↦ h q (List.mem_cons_of_mem _ hq)

/-- However the removal of files ends, nothing else has changed. -/
theorem exists_runs_removeAll (t : FileTree) (removed ps : List Path) :
    ∃ (answer : Except Failure (List Path)) (u : FileTree) (ls : Set Location),
      Runs (removeAll o removed ps) t [] answer u ∧ t.Clears u ls ∧ ls ⊆ filesAt t o.project ps := by
  induction ps generalizing t removed with
  | nil => exact ⟨_, t, ∅, runs_pure removed t, .refl t, Set.empty_subset _⟩
  | cons p ps ih =>
    have hlater : filesAt t o.project ps ⊆ filesAt t o.project (p :: ps) :=
      fun l ⟨q, hq, h⟩ ↦ ⟨q, List.mem_cons_of_mem _ hq, h⟩
    by_cases hp : t.stat (o.project / p) = .error .nameTooLong
    · exact ⟨_, t, ∅, runs_removeAll_of_nameTooLong removed hp ps, .refl t, Set.empty_subset _⟩
    · cases hfile : t.hasFile (o.project / p) with
      | false =>
        obtain ⟨answer, u, ls, hruns, hclears, hls⟩ := ih t removed
        exact ⟨answer, u, ls, runs_removeAll_of_not_hasFile hp hfile hruns, hclears, hls.trans hlater⟩
      | true =>
        obtain ⟨t₁, hremoval, hfirst⟩ := exists_removal hfile
        obtain ⟨answer, u, ls, hruns, hrest, hls⟩ := ih t₁ (removed ++ [p])
        refine ⟨answer, u, _, runs_removeAll_of_hasFile hp hfile hremoval hruns, hfirst.trans hrest, ?_⟩
        rintro l (rfl | hl)
        · exact ⟨p, List.mem_cons_self, hfile, rfl⟩
        · obtain ⟨q, hq, hfound, rfl⟩ := hls hl
          exact hlater ⟨q, hq, (hfirst.hasFile_iff.mp hfound).1, FileTree.place_congr hfirst.current _⟩

/-- Cleaning removes the products. -/
theorem runs_clean (hproducts : g.products = .ok ps) {answer : Except Failure (List Path)}
    (h : Runs (removeAll o [] ps) t [] answer u) : Runs (g.clean o) t [] answer u := by
  have hanswer := runs_ofExcept (g.products.mapError Failure.namelessObject) t
  rw [hproducts] at hanswer
  unfold clean
  rw [hproducts]
  cases answer with
  | error f => exact hanswer.silent_bind h.bind_error
  | ok removed => exact hanswer.silent_bind (h.silent_bind ((runs_say _ u).silent_bind (runs_pure removed u)))

/-- However cleaning ends, nothing has changed but that some of the products are gone. -/
theorem clears_clean (hproducts : g.products = .ok ps) {run run' : Run} {answer : Except Failure (List Path)}
    (h : (g.clean o).run.run run = (answer, run')) :
    ∃ ls ⊆ filesAt run.tree o.project ps, run.tree.Clears run'.tree ls := by
  obtain ⟨answer', u, ls, hruns, hclears, hls⟩ := exists_runs_removeAll (o := o) run.tree [] ps
  obtain ⟨-, rfl, -⟩ := (runs_clean hproducts hruns).of_run h
  exact ⟨ls, hls, hclears⟩

/-! ### After a build -/

section

variable (ht : t.WellFormed) (hdirectory : ∃ m, t.stat project = .ok (.directory m))
  (hs : ∀ q ∈ ps, q.IsStraight) (hnew : ∀ q ∈ ps, t.hasFile (project / q) = false)

include ht hdirectory hs hnew

/-- Where no products were files, no file stood where products lead later. -/
theorem not_mem_reach_of_file (hcurrent : t'.current = t.current) {l : Location} {bytes : ByteArray}
    {m : Timestamp} (hfile : t.entry? l = some (.file bytes m)) : l ∉ reach t' project ps := by
  rintro ⟨q, hq, hlocate⟩
  obtain rfl : l = t.place (project / q) :=
    (eq_place_of_locate hlocate).trans (FileTree.place_congr hcurrent _)
  obtain ⟨m', hm'⟩ := hdirectory
  have hway := ht.locate_join hm' (hs q hq) (isNameable_of_locate hlocate) hfile
  have hfound : t.hasFile (project / q) = true := hasFile_iff_locate.mpr ⟨_, bytes, m, hway, hfile⟩
  rw [hnew q hq] at hfound
  simp at hfound

/-- After what keeps to products, removing the products leaves the files that there were. -/
theorem Within.entry?_file_iff (h : Within project ps t t') (hu : t'.Clears u (filesAt t' project ps))
    (l : Location) (bytes : ByteArray) (m : Timestamp) :
    u.entry? l = some (.file bytes m) ↔ t.entry? l = some (.file bytes m) := by
  have hreach : l ∈ reach t' project ps → t'.entry? l = some (.file bytes m) → l ∈ filesAt t' project ps := by
    rintro ⟨q, hq, hlocate⟩ hfile
    exact ⟨q, hq, hasFile_iff_locate.mpr ⟨l, bytes, m, hlocate, hfile⟩, eq_place_of_locate hlocate⟩
  rw [hu.entry?_file_iff]
  constructor
  · rintro ⟨hfile, hoff⟩
    rcases h.kept l fun hl ↦ hoff (hreach hl hfile) with hkept | ⟨-, -, hmade⟩
    · exact hkept ▸ hfile
    · simp [hmade] at hfile
  · intro hfile
    have hoff := not_mem_reach_of_file ht hdirectory hs hnew h.current hfile
    refine ⟨h.entry?_eq_some hoff hfile, ?_⟩
    rintro ⟨q, hq, hfound, rfl⟩
    obtain ⟨l, -, -, hlocate, -⟩ := hasFile_iff_locate.mp hfound
    exact hoff ⟨q, hq, eq_place_of_locate hlocate ▸ hlocate⟩

end

/-- A project that can be built and has not been: it resolves to a graph with these products, none of which is a
file; no double dot is in the paths of objects and targets; and the tools that it is built with keep to its files. -/
structure Unbuilt (p : Project) (t : FileTree) (r : Resolved) (ps : List Path) (o : BuildOptions) : Prop where
  resolve : (p.resolve t).2 = .ok r
  wellFormed : t.WellFormed
  directory : ∃ m, t.stat p.directory = .ok (.directory m)
  products : r.graph.products = .ok ps
  isStraight : ∀ q ∈ r.graph.outputs, q.IsStraight
  hasNoFile : ∀ q ∈ ps, t.hasFile (p.directory / q) = false
  project : o.project = p.directory
  tools : o.tools.Confined r.graph o.project

/-- A build may leave the tree: it is what a build that is run comes to, or a build that takes its steps in any order
is broken off there. -/
def MayLeave (g : Graph) (o : BuildOptions) (t t' : FileTree) : Prop :=
  (∃ goals? run answer run', run.tree = t ∧ (g.build o goals?).run.run run = (answer, run') ∧ run'.tree = t') ∨
    g.Passes o (fun _ ↦ True) t t'

theorem mayLeave_build (g : Graph) (o : BuildOptions) (goals? : Option (List Path)) (run : Run) :
    g.MayLeave o run.tree ((g.build o goals?).run.run run).2.tree :=
  .inl ⟨goals?, run, _, _, rfl, rfl, rfl⟩

namespace Unbuilt

variable {p : Project} {r : Resolved} (h : Unbuilt p t r ps o)

include h

/-- A build keeps to the products. -/
theorem within (hleft : r.graph.MayLeave o t t') : Within p.directory ps t t' := by
  obtain ⟨root, os, hresolves⟩ := Project.resolve_eq_ok.mp h.resolve
  have hpasses : r.graph.Passes o (fun _ ↦ True) t t' := by
    rcases hleft with ⟨goals?, run, answer, run', rfl, hrun, rfl⟩ | hpasses
    · exact passes_build hresolves.coherent hrun fun _ ↦ trivial
    · exact hpasses
  exact h.project ▸ within_passes hresolves.coherent h.products h.tools h.wellFormed hpasses

theorem isStraight_of_mem : ∀ q ∈ ps, q.IsStraight := by
  obtain ⟨root, os, hresolves⟩ := Project.resolve_eq_ok.mp h.resolve
  exact hresolves.coherent.isStraight_of_mem_products h.products h.isStraight

/-- After what keeps to the products the project resolves again, without headers. -/
theorem resolves_again (hwithin : Within p.directory ps t t') :
    ∃ r', ({ p with includeHeaders := false }.resolve t').2 = .ok r' ∧ r'.graph.products = .ok ps := by
  obtain ⟨root, os, hresolves⟩ := Project.resolve_eq_ok.mp h.resolve
  -- the descriptors of modules are files that were there, and so are not touched
  have hdescriptors : ∀ d ∈ p.descriptors t, t.place (p.directory / d) ∉ reach t' p.directory ps := by
    intro d hd
    obtain ⟨bytes, m, hstat⟩ := hresolves.stat_descriptor hd
    apply not_mem_reach_of_file h.wellFormed h.directory h.isStraight_of_mem h.hasNoFile hwithin.current
    exact (FileTree.stat_eq_ok.mp hstat).2
  have hplain := hresolves.withoutHeaders
  obtain ⟨r', hagain⟩ := hplain.exists_again hwithin hdescriptors (by simp)
  refine ⟨r', hagain, ?_⟩
  rw [hplain.graph_eq_again hwithin hdescriptors hagain]
  exact h.products

end Unbuilt

/-- Cleaning undoes a build, whatever the build comes to, in whatever order it takes its steps, and wherever it is
broken off: a project that has not been built before resolves again without headers, and cleaning leaves exactly the
files that there were before, with their contents and times. It answers with the products at which files are found,
and of those that lead to one file with the first. Cleaning again removes nothing. Provided that the paths of products
can be looked up. -/
theorem clean_undoes_build {p : Project} {t t' : FileTree} {r : Resolved} {ps : List Path}
    {o o' : BuildOptions} (h : Unbuilt p t r ps o) (hleft : r.graph.MayLeave o t t')
    (hlookup : ∀ q ∈ ps, t'.stat (p.directory / q) ≠ .error .nameTooLong)
    (hproject : o'.project = p.directory) :
    ∃ r' u, ({ p with includeHeaders := false }.resolve t').2 = .ok r' ∧ r'.graph.products = .ok ps ∧
      Runs (r'.graph.clean o') t' [] (.ok (standing t' p.directory ps)) u ∧
      (∀ l bytes m, u.entry? l = some (.file bytes m) ↔ t.entry? l = some (.file bytes m)) ∧
      Runs (r'.graph.clean o') u [] (.ok []) u := by
  have hwithin := h.within hleft
  obtain ⟨r', hagain, hproducts⟩ := h.resolves_again hwithin
  rw [← hproject] at hlookup
  obtain ⟨u, hruns, hclears⟩ := runs_removeAll [] hlookup
  refine ⟨r', u, hagain, hproducts, ?_, ?_, ?_⟩
  · exact hproject ▸ runs_clean hproducts hruns
  · exact hwithin.entry?_file_iff h.wellFormed h.directory h.isStraight_of_mem h.hasNoFile (hproject ▸ hclears)
  · apply runs_clean hproducts
    apply runs_removeAll_of_no_files
    · exact fun q hq ↦ hclears.stat_ne_nameTooLong (hlookup q hq)
    · intro q hq
      rw [Bool.eq_false_iff, ne_eq, hclears.hasFile_iff]
      exact fun ⟨hfound, hoff⟩ ↦ hoff ⟨q, hq, hfound, rfl⟩

/-- The products of the project on which builds are rehearsed. -/
def rehearsedProducts : List Path :=
  [.ofString "app", .ofString "build/a.o", .ofString "build/a.P", .ofString "build/a.d"]

/-- What can be computed of a build in which the linker fails. -/
theorem computed_withoutLinker :
    Rehearsal.tree.WellFormed ∧ (Rehearsal.tree.stat .here).toOption = some (.directory (.ofSeconds 100)) ∧
      Rehearsal.graph.products.toOption = some rehearsedProducts ∧
      (∀ q ∈ Rehearsal.graph.outputs, q.IsStraight) ∧
      (∀ q ∈ rehearsedProducts, Rehearsal.tree.hasFile (.here / q) = false) ∧
      (∀ q ∈ rehearsedProducts, withoutLinker.tree.stat (.here / q) ≠ .error .nameTooLong) ∧
      standing withoutLinker.tree .here rehearsedProducts = [.ofString "build/a.o", .ofString "build/a.P"] :=
  ⟨by decide +kernel, by decide +kernel, by decide +kernel, by decide +kernel, by decide +kernel,
    by decide +kernel, by decide +kernel⟩

/-- Where the linker has failed the object and its descriptor are removed. -/
theorem clean_undoes_failing_linker :
    Unbuilt {} Rehearsal.tree ⟨Rehearsal.graph, {}⟩ rehearsedProducts failingLinker ∧
    Rehearsal.graph.MayLeave failingLinker Rehearsal.tree withoutLinker.tree ∧
    ∃ r' u, (({ includeHeaders := false } : Project).resolve withoutLinker.tree).2 = .ok r' ∧
      Runs (r'.graph.clean failingLinker) withoutLinker.tree []
        (.ok [.ofString "build/a.o", .ofString "build/a.P"]) u ∧
      (∀ l bytes m, u.entry? l = some (.file bytes m) ↔ Rehearsal.tree.entry? l = some (.file bytes m)) ∧
      Runs (r'.graph.clean failingLinker) u [] (.ok []) u := by
  obtain ⟨ht, hdirectory, hproducts, hs, hnew, hlookup, hstanding⟩ := computed_withoutLinker
  have htools : failingLinker.tools.Confined Rehearsal.graph .here :=
    ToolScript.Serves.confined_toolchain (s := { Rehearsal.script with fail := ["app"] })
      ⟨Rehearsal.computed_tree.2.1.compile, Rehearsal.computed_tree.2.1.realize⟩
  have hunbuilt : Unbuilt {} Rehearsal.tree ⟨Rehearsal.graph, {}⟩ rehearsedProducts failingLinker :=
    ⟨Rehearsal.resolve_tree, ht, ⟨_, toOption_eq_some.mp hdirectory⟩, toOption_eq_some.mp hproducts, hs, hnew, rfl,
      htools⟩
  have hleft : Rehearsal.graph.MayLeave failingLinker Rehearsal.tree withoutLinker.tree :=
    mayLeave_build Rehearsal.graph failingLinker none (Rehearsal.start Rehearsal.tree)
  obtain ⟨r', u, hresolve, -, hclean, hfiles, hagain⟩ :=
    clean_undoes_build hunbuilt hleft hlookup (rfl : failingLinker.project = .here)
  exact ⟨hunbuilt, hleft, r', u, hresolve, hstanding ▸ hclean, hfiles, hagain⟩

/-! ### Where cleaning falls short -/

/-- A name of which the operating system does not want to hear. -/
def longName : String := .ofList (.replicate 256 'x')

theorem toList_longName : longName.toList = .replicate 256 'x' := String.toList_ofList

theorem isValid_longName : Segment.IsValid longName := by
  refine ⟨fun hempty ↦ ?_, fun hdot ↦ ?_, fun hslash ↦ ?_⟩
  · have hlength := congrArg List.length (toList_longName.symm.trans (congrArg String.toList hempty))
    rw [List.length_replicate] at hlength
    exact absurd hlength (by decide)
  · have hlength := congrArg List.length (toList_longName.symm.trans (congrArg String.toList hdot))
    rw [List.length_replicate] at hlength
    exact absurd hlength (by decide)
  · rw [toList_longName] at hslash
    exact absurd (List.eq_of_mem_replicate hslash) (by decide)

/-- A file in a directory of this name. -/
def longTarget : Path := ⟨.here, [⟨longName, isValid_longName⟩, ⟨"app", by decide +kernel⟩]⟩

/-- It cannot be looked up. -/
theorem stat_longTarget (ht : t.WellFormed) : t.stat longTarget = .error .nameTooLong := by
  have hnull : (toString longTarget).toList.contains '\x00' = false := by
    have htext (s s' : Segment) :
        (Path.toString ⟨.here, [s, s']⟩).toList = s.text.toList ++ ('/' :: s'.text.toList) := by
      rw [Path.toString, if_neg (by simp), Path.toList_anchor_append]
      simp [Anchor.text, List.intercalate_cons_cons]
    refine (congrArg (·.contains '\x00') (htext ..)).trans ?_
    rw [toList_longName, List.contains_eq_mem, decide_eq_false_iff_not, List.mem_append]
    rintro (hmem | hmem)
    · exact absurd (List.eq_of_mem_replicate hmem) (by decide)
    · exact absurd hmem (by decide)
  have hsize : ¬longName.utf8ByteSize ≤ maxName := by decide +kernel
  have hup : (⟨longName, isValid_longName⟩ : Segment) ≠ .up := by decide +kernel
  have hway : t.enter t.current ⟨longName, isValid_longName⟩ = .error .nameTooLong := by
    obtain ⟨m, hm⟩ := ht.current
    unfold enter
    simp only [hm, hup, hsize, if_false]
  rw [stat_eq_nameTooLong]
  unfold locate
  simp only [hnull, Bool.false_eq_true, if_false]
  split
  · rfl
  · exact bind_eq_error.mpr (.inl hway)

/-- The root module of a project. -/
def longRoot : Module where
  path := .ofString "main.ini"
  directory := .here
  target := "app"
  sources := ["a.c"]

/-- The settings of the project: targets go to the directory with the long name. -/
def longSettings : Settings := { targetDir := longTarget.parent }

/-- The project. -/
def longProject : Project := { settings := longSettings, includeHeaders := false }

/-- Its files. -/
def longTree : FileTree := .ofFiles (.ofSeconds 100) [
  ("main.ini", "[module]\ntarget=app\nsources=a.c", .ofSeconds 50), ("a.c", "", .ofSeconds 50)]

/-- Its graph. -/
def longGraph : Graph := (⟨longSettings, [⟨longRoot, []⟩]⟩ : Blueprint).graph

/-- What is left of a build for which there is no compiler. -/
def longRun : Run := ((longGraph.build {} none).run.run (Rehearsal.start longTree)).2

/-- The products that can be looked up. -/
def longObjects : List Path := [.ofString "build/a.o", .ofString "build/a.P", .ofString "build/a.d"]

set_option maxRecDepth 10000 in
/-- What can be computed of the project. -/
theorem computed_longTree :
    (longProject.load longTree).toOption = some (longRoot, longSettings) ∧ longTree.WellFormed ∧
      (longTree.stat .here).toOption = some (.directory (.ofSeconds 100)) ∧
      (⟨longSettings, [⟨longRoot, []⟩]⟩ : Blueprint).fault? = none ∧
      longGraph.products.toOption = some (longTarget :: longObjects) ∧
      (∀ q ∈ longGraph.outputs, q.IsStraight) ∧ ∀ q ∈ longObjects, longTree.hasFile (.here / q) = false :=
  ⟨by decide +kernel, by decide +kernel, by decide +kernel, by decide +kernel, by decide +kernel,
    by decide +kernel, by decide +kernel⟩

theorem unbuilt_longTree :
    Unbuilt longProject longTree ⟨longGraph, longSettings⟩ (longTarget :: longObjects) {} := by
  obtain ⟨hload, ht, hdirectory, hfault, hproducts, hs, hnew⟩ := computed_longTree
  refine ⟨?_, ht, ⟨_, toOption_eq_some.mp hdirectory⟩, toOption_eq_some.mp hproducts, hs, ?_, rfl, ?_⟩
  · exact Project.resolve_eq_ok.mpr ⟨longRoot, [], toOption_eq_some.mp hload, .done, hfault, [], rfl⟩
  · refine List.forall_mem_cons.mpr ⟨?_, hnew⟩
    have hlong : longTree.stat (.here / longTarget) = .error .nameTooLong := by
      rw [Path.here_join]
      exact stat_longTarget ht
    rw [Bool.eq_false_iff, ne_eq, hasFile_eq_true]
    rintro ⟨bytes, m, hstat⟩
    exact nomatch hlong.symm.trans hstat
  · -- programs that are not there change nothing
    refine ⟨fun p a command t t' r _ _ htool ↦ ⟨[], by simp, ?_⟩, fun p a command t t' r _ _ htool ↦ ⟨[], by simp, ?_⟩⟩
    all_goals
      obtain rfl : t = t' := congrArg Prod.fst htool
      exact .nil t

/-- A build of the project whose source has two names. -/
def spelledBuild : Run := ((spelledGraph.build spelledOptions none).run.run (Rehearsal.start spelledTree)).2

/-- Its products. -/
def spelledProducts : List Path :=
  [.ofString "one", .ofString "two", .ofString "/a.o", .ofString "/a.P", .ofString "/a.d", .ofString "build/b.o",
    .ofString "build/b.P", .ofString "build/b.d", .ofString "//a.o", .ofString "//a.P", .ofString "//a.d"]

set_option maxRecDepth 10000 in
/-- What can be computed of this build. -/
theorem computed_spelledBuild :
    (spelledTree.stat .here).toOption = some (.directory (.ofSeconds 100)) ∧
      spelledGraph.products.toOption = some spelledProducts ∧ (∀ q ∈ spelledGraph.outputs, q.IsStraight) ∧
      (∀ q ∈ spelledProducts, spelledTree.hasFile (.here / q) = false) ∧
      (∀ q ∈ spelledProducts, spelledBuild.tree.stat (.here / q) ≠ .error .nameTooLong) ∧
      spelledBuild.tree.hasFile (.here / .ofString "//a.o") = true ∧
      .ofString "//a.o" ∉ standing spelledBuild.tree .here spelledProducts :=
  ⟨by decide +kernel, by decide +kernel, by decide +kernel, by decide +kernel, by decide +kernel,
    by decide +kernel, by decide +kernel⟩

/-- Cleaning fails, and does not answer that there is nothing to remove, where the path of a target cannot be looked
up; and of two objects that are one file it answers with one, though both were there. -/
theorem cleaning_falls_short :
    (Unbuilt longProject longTree ⟨longGraph, longSettings⟩ (longTarget :: longObjects) {} ∧
      longGraph.MayLeave {} longTree longRun.tree ∧
      ∃ r' f, (longProject.resolve longRun.tree).2 = .ok r' ∧
        Runs (r'.graph.clean {}) longRun.tree [] (.error f) longRun.tree) ∧
    Unbuilt {} spelledTree ⟨spelledGraph, {}⟩ spelledProducts spelledOptions ∧
      spelledGraph.MayLeave spelledOptions spelledTree spelledBuild.tree ∧
      ∃ r' removed u, (({ includeHeaders := false } : Project).resolve spelledBuild.tree).2 = .ok r' ∧
        Runs (r'.graph.clean spelledOptions) spelledBuild.tree [] (.ok removed) u ∧
        ∃ q ∈ spelledProducts, spelledBuild.tree.hasFile (.here / q) = true ∧ q ∉ removed := by
  refine ⟨⟨unbuilt_longTree, ?_⟩, ?_⟩
  · have hleft : longGraph.MayLeave {} longTree longRun.tree := by
      unfold longRun
      exact mayLeave_build longGraph {} none (Rehearsal.start longTree)
    have hwithin := unbuilt_longTree.within hleft
    obtain ⟨r', hagain, hproducts⟩ := unbuilt_longTree.resolves_again hwithin
    have hlong : longRun.tree.stat (({} : BuildOptions).project / longTarget) = .error .nameTooLong := by
      rw [show ({} : BuildOptions).project = .here from rfl, Path.here_join]
      exact stat_longTarget (hwithin.wellFormed unbuilt_longTree.wellFormed)
    exact ⟨hleft, r', _, hagain, runs_clean hproducts (runs_removeAll_of_nameTooLong (o := {}) [] hlong longObjects)⟩
  · obtain ⟨hdirectory, hproducts, hs, hnew, hlookup, hfile, hmissing⟩ := computed_spelledBuild
    have hunbuilt : Unbuilt {} spelledTree ⟨spelledGraph, {}⟩ spelledProducts spelledOptions :=
      ⟨resolve_spelledTree, computed_spelledTree.2.1, ⟨_, toOption_eq_some.mp hdirectory⟩,
        toOption_eq_some.mp hproducts, hs, hnew, rfl, computed_spelledTree.2.2.1.confined_toolchain⟩
    have hleft : spelledGraph.MayLeave spelledOptions spelledTree spelledBuild.tree :=
      mayLeave_build spelledGraph spelledOptions none (Rehearsal.start spelledTree)
    obtain ⟨r', hagain, hproducts⟩ := hunbuilt.resolves_again (hunbuilt.within hleft)
    obtain ⟨u, hruns, -⟩ := runs_removeAll (o := spelledOptions) [] hlookup
    exact ⟨hunbuilt, hleft, r', _, u, hagain, runs_clean hproducts hruns, _, by decide +kernel, hfile, hmissing⟩

end Graph

end ModuleBuild
