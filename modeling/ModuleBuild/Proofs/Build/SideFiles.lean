import ModuleBuild.Proofs.Build.Cleaning
import ModuleBuild.Proofs.Source.Files

/-!
# No two files in one place

The objects of a graph, their descriptors and their listings are all different paths (`Graph.nodup_files`), and none of
them is a source, however it is spelled. So cleaning removes a source only where a target is declared at that file
(`Project.resolve_filesApart`).
-/

namespace ModuleBuild

namespace Graph

variable {g : Graph} {o : BuildOptions} {xs : List ObjectRecord} {files : List (List Path)}

/-- An object has three files, which are different paths. -/
theorem files_of_objectFiles {x : ObjectRecord} {qs : List Path} (hx : x.IsObject) (h : objectFiles x = .ok qs) :
    qs.length = 3 ∧ qs.Nodup ∧ ∀ q ∈ qs, x.IsFile q := by
  obtain ⟨d, l, hd, hl, rfl⟩ := objectFiles_eq_ok.mp h
  have hfiles : ∀ q ∈ [x.path, d, l], x.IsFile q := by simp [hx.isFile_iff, hd, hl]
  have hne {y y' : Suffix} {q q' : Path} (hy : y ∈ Suffix.ofFiles) (hy' : y' ∈ Suffix.ofFiles) (hyy' : y ≠ y')
      (hq : x.sibling y = .ok q) (hq' : x.sibling y' = .ok q') : q ≠ q' := by
    rintro rfl
    exact hyy' (ObjectRecord.eq_of_sibling hx hx hy hy' hq hq').1
  have hpd : x.path ≠ d := hne (by simp [Suffix.ofFiles]) (by simp [Suffix.ofFiles])
    (by simp [Suffix.object, Suffix.dependencies]) hx.sibling_object hd
  have hpl : x.path ≠ l := hne (by simp [Suffix.ofFiles]) (by simp [Suffix.ofFiles])
    (by simp [Suffix.object, Suffix.listing]) hx.sibling_object hl
  have hdl : d ≠ l := hne (by simp [Suffix.ofFiles]) (by simp [Suffix.ofFiles])
    (by simp [Suffix.dependencies, Suffix.listing]) hd hl
  exact ⟨rfl, by simp [hpd, hpl, hdl], hfiles⟩

/-- The files of different objects are different paths. -/
theorem nodup_files (hobject : ∀ x ∈ xs, x.IsObject) (hnodup : (xs.map (·.path)).Nodup)
    (h : xs.mapM objectFiles = .ok files) : files.flatten.length = 3 * xs.length ∧ files.flatten.Nodup := by
  induction xs generalizing files with
  | nil =>
    obtain rfl := Except.ok.inj h
    simp
  | cons x xs ih =>
    rw [List.mapM_cons] at h
    obtain ⟨qs, hqs, h⟩ := bind_eq_ok.mp h
    obtain ⟨rest, hrest, h⟩ := bind_eq_ok.mp h
    obtain rfl := Except.ok.inj h
    obtain ⟨hpath, hpaths⟩ := List.nodup_cons.mp hnodup
    obtain ⟨hlength, hnodup', hfiles⟩ := files_of_objectFiles (hobject x List.mem_cons_self) hqs
    obtain ⟨hlengths, hnodups⟩ := ih (fun y hy ↦ hobject y (List.mem_cons_of_mem _ hy)) hpaths hrest
    refine ⟨?_, ?_⟩
    · rw [List.flatten_cons, List.length_append, hlength, hlengths, List.length_cons]
      omega
    · rw [List.flatten_cons, List.nodup_append]
      refine ⟨hnodup', hnodups, ?_⟩
      rintro q hq _ hq' rfl
      obtain ⟨qs', hqs', hq'⟩ := List.mem_flatten.mp hq'
      obtain ⟨y, hy, hfilesy⟩ := (mem_of_mapM hrest).mp hqs'
      obtain ⟨-, -, hall⟩ := files_of_objectFiles (hobject y (List.mem_cons_of_mem _ hy)) hfilesy
      obtain ⟨z, hz, hqz⟩ := hfiles q hq
      obtain ⟨z', hz', hqz'⟩ := hall q hq'
      -- a path is a file of one object only
      have heq := (ObjectRecord.eq_of_sibling (hobject x List.mem_cons_self) (hobject y (List.mem_cons_of_mem _ hy))
        hz hz' hqz hqz').2
      exact hpath (List.mem_map.mpr ⟨y, hy, heq.symm⟩)

end Graph

namespace Project

variable {p : Project} {t : FileTree} {r : Resolved}

/-- The files of objects are kept apart from each other and from sources. -/
structure FilesApart (r : Resolved) : Prop where
  /-- The files of objects can be told, three for each, all of them different paths. None has the normal form of a
  source or leads where a source does, whatever both are put under. -/
  files : ∃ files, r.graph.objects.values.mapM Graph.objectFiles = .ok files ∧
    files.flatten.length = 3 * r.graph.objects.values.length ∧ files.flatten.Nodup ∧
    ∀ q ∈ files.flatten, ∀ x ∈ r.graph.objects.values, q.normalize ≠ x.source.normalize ∧
      ∀ (directory : Path) (l : Location), l.follow (directory / q) ≠ l.follow (directory / x.source)
  /-- However cleaning ends, a source that was found before and is not any more was the file of a target. -/
  clean : ∀ (o : BuildOptions) (run run' : Run) (answer : Except Failure (List Path)),
    (r.graph.clean o).run.run run = (answer, run') → ∀ x ∈ r.graph.objects.values,
    run.tree.hasFile (o.project / x.source) = true → run'.tree.hasFile (o.project / x.source) = false →
    ∃ target ∈ r.graph.targets.keys, run.tree.hasFile (o.project / target) = true ∧
      run.tree.place (o.project / target) = run.tree.place (o.project / x.source)

/-- The files of objects of a resolved project are kept apart. -/
theorem resolve_filesApart (h : (p.resolve t).2 = .ok r) : FilesApart r := by
  obtain ⟨root, os, hr⟩ := resolve_eq_ok.mp h
  have hg := hr.coherent
  have hobject : ∀ x ∈ r.graph.objects.values, x.IsObject ∧ Language.ofSource? x.source = some x.language :=
    fun x hx ↦ (hg.object _ _ (hg.find?_of_mem hx)).2
  constructor
  case files =>
    obtain ⟨ps, hproducts⟩ := hg.exists_products
    obtain ⟨files, hfiles, -⟩ := Graph.products_eq_ok.mp hproducts
    obtain ⟨hlength, hnodup⟩ := Graph.nodup_files (fun x hx ↦ (hobject x hx).1) hg.objects_nodup hfiles
    refine ⟨files, hfiles, hlength, hnodup, fun q hq x hx ↦ ?_⟩
    obtain ⟨qs, hqs, hq⟩ := List.mem_flatten.mp hq
    obtain ⟨y, hy, hqs⟩ := (mem_of_mapM hfiles).mp hqs
    have hfile : y.IsFile q := (Graph.files_of_objectFiles (hobject y hy).1 hqs).2.2 q hq
    exact ⟨hfile.normalize_ne (hobject x hx).2, hfile.follow_ne (hobject x hx).2⟩
  case clean =>
    intro o run run' answer hrun x hx hbefore hafter
    obtain ⟨ps, hproducts⟩ := hg.exists_products
    obtain ⟨ls, hls, hclears⟩ := Graph.clears_clean hproducts hrun
    have hgone : run.tree.place (o.project / x.source) ∈ ls := by
      by_contra hoff
      simp [hclears.hasFile_iff.mpr ⟨hbefore, hoff⟩] at hafter
    obtain ⟨q, hq, hfound, hplace⟩ := hls hgone
    rcases (hg.mem_products hproducts).mp hq with htarget | ⟨y, hy, hfile⟩
    · exact ⟨q, htarget, hfound, hplace.symm⟩
    · have hfile : y.IsFile q := (hobject y hy).1.isFile_iff.mpr hfile
      exact absurd hplace.symm (hfile.follow_ne (hobject x hx).2 o.project run.tree.current)

/-- Sources whose names have dots in many places, one of which a target is declared at. -/
def dottedTree : FileTree := .ofFiles (.ofSeconds 100) [
  ("main.ini", "[module]\ntarget=a.b.c\nsources=a.b.c a.b.o.c .x.c++ y..cc build/../d.C", .ofSeconds 50),
  ("a.b.c", "", .ofSeconds 50), ("a.b.o.c", "", .ofSeconds 50)]

/-- The source at which the target is declared is removed. -/
theorem resolve_filesApart_of_dotted : ∃ r, (({} : Project).resolve dottedTree).2 = .ok r ∧ FilesApart r ∧
    r.graph.objects.keys = [.ofString "build/a.b.o", .ofString "build/a.b.o.o", .ofString "build/.x.o",
      .ofString "build/y..o", .ofString "build/build/../d.o"] ∧
    ∃ target ∈ r.graph.targets.keys, dottedTree.hasFile (.here / target) = true ∧
      dottedTree.place (.here / target) = dottedTree.place (.here / .ofString "a.b.c") := by
  have hcomputed : (({} : Project).resolve dottedTree).2.toOption.map (fun r ↦ (r.graph.objects.keys,
        r.graph.objects.values.any (·.source = .ofString "a.b.c"),
        ((r.graph.clean {}).run.run { tree := dottedTree }).2.tree.hasFile (.here / .ofString "a.b.c"))) =
      some ([.ofString "build/a.b.o", .ofString "build/a.b.o.o", .ofString "build/.x.o", .ofString "build/y..o",
        .ofString "build/build/../d.o"], true, false) := by
    decide +kernel
  obtain ⟨r, hr, hgraph⟩ := Option.map_eq_some_iff.mp hcomputed
  obtain ⟨hkeys, hgraph⟩ := Prod.mk.inj hgraph
  obtain ⟨hsource, hafter⟩ := Prod.mk.inj hgraph
  have hresolve := toOption_eq_some.mp hr
  have hapart : FilesApart r := resolve_filesApart hresolve
  obtain ⟨x, hx, hx'⟩ := List.any_eq_true.mp hsource
  have hxsource : x.source = .ofString "a.b.c" := of_decide_eq_true hx'
  have hbefore : dottedTree.hasFile (.here / .ofString "a.b.c") = true := by decide +kernel
  have hcleaned := hapart.clean {} { tree := dottedTree } _ _ rfl x hx
  rw [hxsource] at hcleaned
  exact ⟨r, hresolve, hapart, hkeys, hcleaned hbefore hafter⟩

end Project
end ModuleBuild
