import ModuleBuild.Proofs.FileTree.Clearing
import ModuleBuild.Proofs.Graph.Refusing
import ModuleBuild.Proofs.Module.Reaching
import Mathlib.Data.List.Dedup

/-!
# The walk comes to an end

While references stay inside the project, the modules above one another are as many files of the project, and the root
besides, whose path may be spelled in any way (`Module.Chain.length_le`). So the walk of a project is at its end at the
latest when modules nest as deep as the project has files and one deeper, whatever the references are
(`Project.resolve_terminates`).
-/

namespace ModuleBuild

namespace Path

/-- The path stays in the directory from which it starts: it is relative, and no double dot is in front. -/
def IsInside (p : Path) : Prop := p.isAbsolute = false ∧ p.segments.head? ≠ some .up

instance (p : Path) : Decidable p.IsInside := inferInstanceAs (Decidable (_ ∧ _))

/-- No double dot is left in the normal form of a path that stays inside. -/
theorem IsInside.isStraight {p : Path} (h : p.IsInside) (hn : p.IsNormal) : p.IsStraight := by
  have hdrop : p.segments.dropWhile (· == .up) = p.segments := by
    cases hp : p.segments with
    | nil => rfl
    | cons s ss =>
      have hs : s ≠ .up := fun hs ↦ h.2 (by rw [hp, hs, List.head?_cons])
      rw [List.dropWhile_cons_of_neg (by simpa using hs)]
  intro s hs
  apply hn
  rwa [hdrop]

end Path

namespace FileTree

variable {t : FileTree} {project p q : Path}

/-- Names lead downwards from the directory that they follow. -/
theorem place_join_of_isStraight (t : FileTree) (project : Path) (h : p.IsInside) (hs : p.IsStraight) :
    t.place (project / p) = p.segments.reverse ++ t.place project := by
  rw [place, Location.follow_join, if_neg (by simp [h.1]), Location.follow, if_neg (by simp [h.1]),
    Location.foldl_step_of_ne_up hs]
  rfl

/-- Where the files in a directory and below it stand. -/
def filesBelow (t : FileTree) (p : Path) : List Location :=
  (t.nodes.keys.filter fun l ↦ (t.entry? l).any Entry.isFile && (t.place p).isSuffixOf l).dedup

theorem nodup_filesBelow (t : FileTree) (p : Path) : (t.filesBelow p).Nodup := List.nodup_dedup _

theorem length_filesBelow_le (t : FileTree) (p : Path) : (t.filesBelow p).length ≤ t.nodes.entries.length := by
  have hsub : t.filesBelow p ⊆ t.nodes.keys := by
    intro l hl
    rw [filesBelow, List.mem_dedup] at hl
    exact List.mem_of_mem_filter hl
  have hle := (List.subperm_of_subset (t.nodup_filesBelow p) hsub).length_le
  rwa [Table.keys, List.length_map] at hle

/-- A file that is found inside a directory is one of those below it. -/
theorem place_mem_filesBelow (hp : p.IsInside) (hs : p.IsStraight) (h : t.hasFile (project / p)) :
    t.place (project / p) ∈ t.filesBelow project := by
  obtain ⟨bytes, m, hstat⟩ := hasFile_eq_true.mp h
  have hentry := (stat_eq_ok.mp hstat).2
  have hbelow : t.place project <:+ t.place (project / p) := by
    rw [place_join_of_isStraight t project hp hs]
    exact List.suffix_append _ _
  rw [filesBelow, List.mem_dedup, List.mem_filter, hentry]
  exact ⟨mem_keys_of_file hentry, by simpa [Entry.isFile] using hbelow⟩

/-- Different files inside a directory are no more than those below it. -/
theorem length_le_filesBelow {ps : List Path} (hn : ps.Nodup)
    (h : ∀ q ∈ ps, q.IsInside ∧ q.IsStraight ∧ t.hasFile (project / q)) :
    ps.length ≤ (t.filesBelow project).length := by
  have hinj : ∀ q ∈ ps, ∀ q' ∈ ps, t.place (project / q) = t.place (project / q') → q = q' := by
    intro q hq q' hq' heq
    obtain ⟨hin, hs, -⟩ := h q hq
    obtain ⟨hin', hs', -⟩ := h q' hq'
    rw [place_join_of_isStraight t project hin hs, place_join_of_isStraight t project hin' hs',
      List.append_cancel_right_eq, List.reverse_inj] at heq
    have hanchor : q.anchor = .here := by simpa [Path.isAbsolute] using hin.1
    have hanchor' : q'.anchor = .here := by simpa [Path.isAbsolute] using hin'.1
    cases q
    cases q'
    simp_all
  have hplaces : (ps.map fun q ↦ t.place (project / q)).Nodup := (List.nodup_map_iff_inj_on hn).mpr hinj
  have hsub : (ps.map fun q ↦ t.place (project / q)) ⊆ t.filesBelow project := by
    intro l hl
    obtain ⟨q, hq, rfl⟩ := List.mem_map.mp hl
    obtain ⟨hin, hs, hfile⟩ := h q hq
    exact place_mem_filesBelow hin hs hfile
  have hle := (List.subperm_of_subset hplaces hsub).length_le
  rwa [List.length_map] at hle

end FileTree

namespace Module

variable {t : FileTree} {project : Path} {root m child : Module} {above : List Module} {reference : String}

/-- Modules above one another, the nearest first and the root last. Their descriptors are different, and except for that
of the root they are inside the project. -/
structure Chain (t : FileTree) (project : Path) (root : Module) (lineage : List Module) : Prop where
  nested : Nested t project lineage
  root : lineage.getLast? = some root
  isInside : ∀ m ∈ lineage.dropLast, m.path.IsInside

theorem chain_root (t : FileTree) (project : Path) (root : Module) : Chain t project root [root] where
  nested := nested_root t project root
  root := rfl
  isInside := by simp

/-- A reference that stays inside the project makes the chain longer. -/
theorem Chain.refer (h : Chain t project root (m :: above))
    (href : Module.refer t project m above reference = .ok child) (hin : child.path.IsInside) :
    Chain t project root (child :: m :: above) where
  nested := h.nested.refer href
  root := by rw [List.getLast?_cons_cons, h.root]
  isInside := by
    intro m' hm'
    rw [List.dropLast_cons_of_ne_nil (by simp), List.mem_cons] at hm'
    rcases hm' with rfl | hm'
    · exact hin
    · exact h.isInside m' hm'

/-- A chain is no longer than the project has files, apart from the root. -/
theorem Chain.length_le {lineage : List Module} (h : Chain t project root lineage) :
    lineage.length ≤ (t.filesBelow project).length + 1 := by
  have hnodup : (lineage.dropLast.map (·.path)).Nodup :=
    ((List.dropLast_sublist lineage).map _).nodup h.nested.nodup
  have hfiles : ∀ q ∈ lineage.dropLast.map (·.path), q.IsInside ∧ q.IsStraight ∧ t.hasFile (project / q) := by
    intro q hq
    obtain ⟨m, hm, rfl⟩ := List.mem_map.mp hq
    have hdescriptor := h.nested.isDescriptor m hm
    have hin := h.isInside m hm
    exact ⟨hin, hin.isStraight hdescriptor.isNormal, FileTree.hasFile_eq_true.mpr hdescriptor.isFile⟩
  have hle := FileTree.length_le_filesBelow hnodup hfiles
  rw [List.length_map, List.length_dropLast] at hle
  omega

/-- If references stay inside the project, modules occur at the end of chains. -/
theorem Unfolds.chain {os : List Occurrence} {ending : Option Failure}
    (h : Unfolds t project root [] root.submodules os ending)
    (hin : ∀ before o r q, Reaches t project root [] root.submodules before o r →
      submodulePath t project o.module.directory r = .ok q → q.IsInside) :
    ∀ o ∈ (⟨root, []⟩ :: os : List Occurrence), Chain t project root (o.module :: o.ancestors) := by
  intro o ho
  rcases List.mem_cons.mp ho with rfl | ho
  · exact chain_root t project root
  · apply h.lineage (P := Chain t project root) (chain_root t project root) ?_ o ho
    intro before o r child hr hchain href
    exact hchain.refer href (hin before o r _ hr (load_of_refer href).1)

/-- It is enough that the references of all modules that are visited stay inside the project. -/
theorem isInside_of_visits {targetDir : Path}
    (h : ∀ v ∈ (root.walkFrom t project targetDir).visits, ∀ r ∈ v.module.submodules,
      ∀ q ∈ (submodulePath t project v.module.directory r).toOption, q.IsInside)
    {before : List Occurrence} {o : Occurrence} {r : String} {q : Path}
    (hr : Reaches t project root [] root.submodules before o r)
    (hq : submodulePath t project o.module.directory r = .ok q) : q.IsInside := by
  obtain ⟨os, ending, hunfolds, hvisited, -⟩ := walkFrom_unfolds t project targetDir root
  have ho : o ∈ (⟨root, []⟩ :: os : List Occurrence) ∧ r ∈ o.module.submodules := by
    rcases hr.occurs with ⟨rfl, hmem⟩ | ⟨ho, hmem⟩
    · exact ⟨List.mem_cons_self, hmem⟩
    · exact ⟨List.mem_cons_of_mem _ ((hr.isPrefix hunfolds).subset ho), hmem⟩
  obtain ⟨ho, hmem⟩ := ho
  have hpair := List.mem_map_of_mem (f := fun o ↦ (o.module, o.target targetDir)) ho
  rw [← hvisited] at hpair
  obtain ⟨v, hv, hvo⟩ := List.mem_map.mp hpair
  have hmodule : v.module = o.module := congrArg Prod.fst hvo
  exact h v hv r (hmodule ▸ hmem) q (by rw [hmodule, hq]; rfl)

end Module

namespace Project

variable {p : Project} {t : FileTree}

/-- The descriptors that are being visited, outermost first: they are different files' paths, the first is that of the root
as the project spells it, and the others are in normal form. -/
structure IsActive (p : Project) (t : FileTree) (chain : List Path) : Prop where
  head : chain.head? = some p.root
  nodup : chain.Nodup
  hasFile : ∀ q ∈ chain, t.hasFile (p.directory / q)
  isNormal : ∀ q ∈ chain.tail, q.normalize = q

/-- The descriptors of a chain are being visited in its scope. -/
theorem isActive_of_chain {root : Module} {s : Settings} {lineage : List Module} {scope : Scope} {targetDir : Path}
    (hload : p.load t = .ok (root, s)) (h : Module.Chain t p.directory root lineage)
    (hs : Module.InScope targetDir scope lineage) : p.IsActive t scope.modules.toList := by
  obtain ⟨hroot, hfile⟩ := Module.path_of_load (module_load_of_load hload)
  obtain ⟨ms, rfl⟩ : ∃ ms, lineage = ms ++ [root] := by
    have hne : lineage ≠ [] := fun hnil ↦ by simpa [hnil] using h.root
    refine ⟨lineage.dropLast, ?_⟩
    have hlast := h.root
    rw [List.getLast?_eq_some_getLast hne] at hlast
    rw [← Option.some.inj hlast, List.dropLast_append_getLast]
  have hlist : scope.modules.toList = p.root :: (ms.map (·.path)).reverse := by
    rw [Stack.toList, hs.modules, List.map_append, List.reverse_append, ← hroot]
    rfl
  have hms : ∀ q ∈ (ms.map (·.path)).reverse, Module.IsDescriptor t p.directory q ∧ q.IsInside := by
    intro q hq
    obtain ⟨m, hm, rfl⟩ := List.mem_map.mp (List.mem_reverse.mp hq)
    rw [← @List.dropLast_concat _ ms root] at hm
    exact ⟨h.nested.isDescriptor m hm, h.isInside m hm⟩
  rw [hlist]
  refine ⟨rfl, ?_, ?_, ?_⟩
  · have hnodup := List.nodup_reverse.mpr h.nested.nodup
    rwa [← hs.modules, ← Stack.toList, hlist] at hnodup
  · intro q hq
    rcases List.mem_cons.mp hq with rfl | hq
    · exact FileTree.hasFile_eq_true.mpr hfile
    · exact FileTree.hasFile_eq_true.mpr (hms q hq).1.isFile
  · intro q hq
    obtain ⟨hdescriptor, hin⟩ := hms q hq
    apply hdescriptor.isNormal.normalize_eq
    simp [hin.1]

/-- Resolution comes to an end if references stay inside the project, however they run through it. The references of the
root module unfold, and the walk is at its end when modules nest as deep as the project has files and one deeper. All the
way the descriptors that are being visited are different files' paths, in normal form except for that of the root. -/
theorem resolve_terminates (p : Project) (t : FileTree)
    (hinside : ∀ root s before o r q, p.load t = .ok (root, s) →
      Module.Reaches t p.directory root [] root.submodules before o r →
      Module.submodulePath t p.directory o.module.directory r = .ok q → q.IsInside) :
    (p.resolve t).2 ≠ .error .endless ∧
      ∀ root s, p.load t = .ok (root, s) →
        (∃ os ending, Module.Unfolds t p.directory root [] root.submodules os ending) ∧
        (∀ n, (t.filesBelow p.directory).length < n →
          Module.walk t p.directory s.targetDir n root {} = root.walkFrom t p.directory s.targetDir) ∧
        ∀ v ∈ (root.walkFrom t p.directory s.targetDir).visits,
          p.IsActive t v.scope.modules.toList ∧ v.scope.depth ≤ (t.filesBelow p.directory).length + 1 := by
  refine ⟨p.resolve_ne_endless t, fun root s hload ↦ ?_⟩
  obtain ⟨os, ending, hunfolds, -⟩ := Module.walkFrom_unfolds t p.directory s.targetDir root
  have hchain := hunfolds.chain fun before o r q hr hq ↦ hinside root s before o r q hload hr hq
  have hscope := (Module.inScope_root s.targetDir).enter root
  have hdepth : ∀ o ∈ os, o.ancestors.length ≤ ([] : List Module).length + (t.filesBelow p.directory).length := by
    intro o ho
    have hle := (hchain o (List.mem_cons_of_mem _ ho)).length_le
    simp only [List.length_cons, List.length_nil] at hle ⊢
    omega
  have hwalk (n : Nat) (hn : (t.filesBelow p.directory).length < n) :
      Module.walk t p.directory s.targetDir n root {} =
        Module.walk t p.directory s.targetDir ((t.filesBelow p.directory).length + 1) root {} := by
    obtain ⟨k, rfl⟩ : ∃ k, n = k + 1 := ⟨n - 1, by omega⟩
    rw [Module.walk_succ, Module.walk_succ, hunfolds.walkReferences_eq hscope hdepth (Nat.le_of_lt_succ hn)]
  -- the bound of the walk is more than enough
  have hfrom : root.walkFrom t p.directory s.targetDir =
      Module.walk t p.directory s.targetDir ((t.filesBelow p.directory).length + 1) root {} := by
    apply hwalk
    have hle := t.length_filesBelow_le p.directory
    simp only [Module.maxDepth, FileTree.maxPath]
    omega
  rw [hfrom]
  refine ⟨⟨os, ending, hunfolds⟩, hwalk, fun v hv ↦ ?_⟩
  rw [Module.walk_succ] at hv
  have henters := List.Forall₂.cons hscope.enters (hunfolds.enters hscope hdepth).1
  obtain ⟨o, ho, hvo⟩ := Module.exists_enters henters hv
  refine ⟨isActive_of_chain hload (hchain o ho) hvo.inScope, ?_⟩
  have hle := (hchain o ho).length_le
  rwa [Scope.depth, Stack.size, hvo.inScope.modules, List.length_map]

/-- Two modules that refer to each other, one of them twice. -/
def crossedTree : FileTree := .ofFiles (.ofSeconds 100) [
  ("main.ini", "[module]\nsubmodules=lib lib", .ofSeconds 50),
  ("lib/module.ini", "[module]\nsubmodules=../main.ini", .ofSeconds 50)]

/-- One of the two as the root, by another name than that by which the other refers to it. -/
def crossedRoot : Module where
  path := .ofString "lib/../main.ini"
  directory := .here
  submodules := ["lib", "lib"]

/-- The walk from there enters two files in three modules above one another, before the loop is found. -/
theorem resolve_terminates_of_crossed :
    ({ root := crossedRoot.path } : Project).load crossedTree = .ok (crossedRoot, {}) ∧
      (crossedTree.filesBelow .here).length = 2 ∧
      ((crossedRoot.walkFrom crossedTree .here .here).visits.map fun v ↦ v.scope.depth) = [1, 2, 3] ∧
      (({ root := crossedRoot.path } : Project).resolve crossedTree).2 ≠ .error .endless ∧
      (∃ os ending, Module.Unfolds crossedTree .here crossedRoot [] crossedRoot.submodules os ending) ∧
      (∀ n, 2 < n → Module.walk crossedTree .here .here n crossedRoot {} = crossedRoot.walkFrom crossedTree .here .here) ∧
      ∀ v ∈ (crossedRoot.walkFrom crossedTree .here .here).visits,
        ({ root := crossedRoot.path } : Project).IsActive crossedTree v.scope.modules.toList ∧ v.scope.depth ≤ 2 + 1 := by
  have hload : ({ root := crossedRoot.path } : Project).load crossedTree = .ok (crossedRoot, {}) :=
    toOption_eq_some.mp (by decide +kernel)
  have hfiles : (crossedTree.filesBelow .here).length = 2 := by decide +kernel
  have hvisits : ((crossedRoot.walkFrom crossedTree .here .here).visits.map fun v ↦ v.scope.depth) = [1, 2, 3] := by
    decide +kernel
  have hinside : ∀ v ∈ (crossedRoot.walkFrom crossedTree .here .here).visits, ∀ r ∈ v.module.submodules,
      ∀ q ∈ (Module.submodulePath crossedTree .here v.module.directory r).toOption, q.IsInside := by
    decide +kernel
  obtain ⟨hends, hwalk⟩ := resolve_terminates { root := crossedRoot.path } crossedTree (by
    intro root s before o r q hload' hr hq
    obtain ⟨rfl, rfl⟩ := Prod.mk.inj (Except.ok.inj (hload.symm.trans hload'))
    exact Module.isInside_of_visits hinside hr hq)
  have hcrossed := hwalk crossedRoot {} hload
  rw [hfiles] at hcrossed
  exact ⟨hload, hfiles, hvisits, hends, hcrossed⟩

end Project

end ModuleBuild
