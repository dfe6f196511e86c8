import ModuleBuild.Module.Descriptor
import ModuleBuild.Proofs.FileTree.Lookup
import ModuleBuild.Proofs.Path.Destination

/-!
# How references are spelled

What is followed behind paths with one normal form has one normal form (`normalize_join_congr`), so that the descriptor
that a reference leads to is told by the place where the reference leads from the module's directory, however the one
and the other are spelled (`normalize_canonical`).
-/

namespace ModuleBuild

namespace Path

/-- What is followed behind paths with one normal form comes to one normal form. -/
theorem normalize_join_congr {p p' : Path} (h : p.normalize = p'.normalize) (q : Path) :
    (p / q).normalize = (p' / q).normalize := by
  cases hq : q.isAbsolute with
  | true => rw [join_of_isAbsolute hq, join_of_isAbsolute hq]
  | false =>
    have hstack : p.segments.foldl pushSegment ⟨p.anchor, []⟩ = p'.segments.foldl pushSegment ⟨p'.anchor, []⟩ := by
      obtain ⟨hanchor, hreverse⟩ := Path.mk.inj h
      exact congrArg₂ Path.mk hanchor (List.reverse_inj.mp hreverse)
    have hjoin (r : Path) : (r / q).normalize =
        let s := q.segments.foldl pushSegment (r.segments.foldl pushSegment ⟨r.anchor, []⟩)
        ⟨s.anchor, s.segments.reverse⟩ := by
      rw [join_of_not_isAbsolute hq, ← List.foldl_append]
      rfl
    rw [hjoin p, hjoin p', hstack]

/-- Paths with one normal form lie in directories with one normal form, unless they end in a double dot. -/
theorem normalize_parent_eq {p q : Path} (hp : p.name? ≠ some .up) (hq : q.name? ≠ some .up)
    (h : p.normalize = q.normalize) : p.parent.normalize = q.parent.normalize := by
  have hconcat {a : Anchor} {ss : List Segment} {s : Segment} (hs : (⟨a, ss ++ [s]⟩ : Path).name? ≠ some .up) :
      (⟨a, ss ++ [s]⟩ : Path).normalize =
        ⟨(⟨a, ss⟩ : Path).normalize.anchor, (⟨a, ss⟩ : Path).normalize.segments ++ [s]⟩ :=
    normalize_append (by simpa [name?] using hs)
  obtain ⟨a, ss⟩ := p
  obtain ⟨b, ss'⟩ := q
  induction ss using List.reverseRecOn with
  | nil =>
    induction ss' using List.reverseRecOn with
    | nil => exact h
    | append_singleton ss' s' =>
      rw [hconcat hq] at h
      exact absurd (congrArg Path.segments h).symm (by simp [normalize])
  | append_singleton ss s =>
    rw [hconcat hp] at h
    induction ss' using List.reverseRecOn with
    | nil => exact absurd (congrArg Path.segments h) (by simp [normalize])
    | append_singleton ss' s' =>
      rw [hconcat hq, Path.mk.injEq] at h
      rw [parent, parent, List.dropLast_concat, List.dropLast_concat]
      exact congrArg₂ Path.mk h.1 (List.append_inj' h.2 rfl).1

theorem isAbsolute_join {p q : Path} (hp : p.isAbsolute = false) (hq : q.isAbsolute = false) :
    (p / q).isAbsolute = false := by
  rw [join_of_not_isAbsolute hq]
  exact hp

end Path

namespace Module

variable {t : FileTree} {project directory directory' : Path} {reference reference' : String}

/-- The descriptor path is told by the normal form of the reference as it is followed from the directory. -/
theorem submodulePath_congr (h : (directory / Path.ofString reference).normalize =
    (directory' / Path.ofString reference').normalize) :
    submodulePath t project directory reference = submodulePath t project directory' reference' := by
  rw [submodulePath, submodulePath, h]

/-- A descriptor path is found unless a name is too long for the system. -/
theorem exists_submodulePath
    (h : t.stat (project / (directory / Path.ofString reference).normalize) ≠ .error .nameTooLong) :
    ∃ path, submodulePath t project directory reference = .ok path := by
  obtain ⟨found, hfound⟩ : ∃ found,
      t.isDirectory (project / (directory / Path.ofString reference).normalize) = .ok found :=
    ⟨_, FileTree.isDirectory_eq_ok.mpr ⟨h, rfl⟩⟩
  rw [submodulePath, hfound]
  exact ⟨_, rfl⟩

theorem isAbsolute_directoryOf {p : Path} (h : p.isAbsolute = false) : (directoryOf p).isAbsolute = false :=
  Path.isAbsolute_normalize h

/-- Relative paths have one normal form exactly if they lead to one place: double dots and then names, which is its own
normal form and stands for the path in front of others. So a reference leads to one descriptor by whatever spelling of
it and of the descriptor in which it stands. -/
theorem normalize_canonical {p q : Path} (hp : p.isAbsolute = false) (hq : q.isAbsolute = false) :
    (p.normalize = q.normalize ↔ p.SamePlace q) ∧
      (∃ climbs names, p.normalize = ⟨.here, List.replicate climbs .up ++ names⟩ ∧
        ∀ s ∈ names, s.text ≠ "." ∧ s.text ≠ "..") ∧
      p.normalize.normalize = p.normalize ∧
      (p.normalize / q).normalize = (p / q).normalize ∧
      (p.SamePlace q → p.name? ≠ some .up → q.name? ≠ some .up →
        ∀ (t : FileTree) (project : Path) (reference reference' : String),
          (Path.ofString reference).isAbsolute = false → (Path.ofString reference').isAbsolute = false →
          (directoryOf p / Path.ofString reference).SamePlace (directoryOf p / Path.ofString reference') →
          submodulePath t project (directoryOf p) reference = submodulePath t project (directoryOf q) reference' ∧
            (t.stat (project / (directoryOf p / Path.ofString reference).normalize) ≠ .error .nameTooLong →
              ∃ path, submodulePath t project (directoryOf p) reference = .ok path)) := by
  refine ⟨Path.normalize_eq_iff hp hq, ⟨p.normalize.climbs, p.normalize.names, ?_, fun s hs ↦ ⟨s.isValid.2.1, ?_⟩⟩,
    p.normalize_normalize, Path.normalize_join_congr p.normalize_normalize q, ?_⟩
  · rw [← p.normalize.segments_eq, ← Path.anchor_normalize_of_not_isAbsolute hp]
  · exact fun htext ↦ Path.isNormal_normalize p s hs (Segment.ext htext)
  · intro hplace hpname hqname t project reference reference' hr hr' hsame
    refine ⟨submodulePath_congr ?_, exists_submodulePath⟩
    have hdirectory : directoryOf q = directoryOf p :=
      (Path.normalize_parent_eq hpname hqname ((Path.normalize_eq_iff hp hq).mpr hplace)).symm
    rw [hdirectory]
    have habs := isAbsolute_directoryOf hp
    exact (Path.normalize_eq_iff (Path.isAbsolute_join habs hr) (Path.isAbsolute_join habs hr')).mpr hsame

/-- A project with a directory for a library. -/
def libraryTree : FileTree := .ofFiles (.ofSeconds 100) [
  ("src/main.ini", "[module]\ntarget=app\nsubmodules=../lib", .ofSeconds 50),
  ("lib/module.ini", "[module]\ntarget=lib.a", .ofSeconds 50)]

/-- Two spellings of a descriptor, and two of a reference in it. -/
theorem normalize_canonical_of_respelled :
    let p := Path.ofString "lib/../src/main.ini"
    let q := Path.ofString "./src/x/../main.ini"
    p.isAbsolute = false ∧ q.isAbsolute = false ∧ p.SamePlace q ∧ p.name? ≠ some .up ∧ q.name? ≠ some .up ∧
      (directoryOf p / Path.ofString "../lib").SamePlace (directoryOf p / Path.ofString "x/../.././lib") ∧
      submodulePath libraryTree .here (directoryOf p) "../lib" =
        submodulePath libraryTree .here (directoryOf q) "x/../.././lib" ∧
      submodulePath libraryTree .here (directoryOf p) "../lib" = .ok (.ofString "lib/module.ini") := by
  intro p q
  have hp : p.isAbsolute = false := by decide +kernel
  have hq : q.isAbsolute = false := by decide +kernel
  have hsame : p.SamePlace q := (Path.normalize_eq_iff hp hq).mp (by decide +kernel)
  have hpname : p.name? ≠ some .up := by decide +kernel
  have hqname : q.name? ≠ some .up := by decide +kernel
  have hreference : (directoryOf p / Path.ofString "../lib").SamePlace
      (directoryOf p / Path.ofString "x/../.././lib") :=
    (Path.normalize_eq_iff (by decide +kernel) (by decide +kernel)).mp (by decide +kernel)
  obtain ⟨-, -, -, -, hsubmodule⟩ := normalize_canonical hp hq
  have hpath := hsubmodule hsame hpname hqname libraryTree .here "../lib" "x/../.././lib" (by decide +kernel)
    (by decide +kernel) hreference
  exact ⟨hp, hq, hsame, hpname, hqname, hreference, hpath.1, toOption_eq_some.mp (by decide +kernel)⟩

end Module

end ModuleBuild
