import ModuleBuild.Proofs.Answers
import ModuleBuild.Source.Ownership

/-!
# Collecting the objects of a module

What `Ownership.collect` does, in one equation: if all sources of a module are in known languages and
none of their objects belongs to another source, the module's records are those of `Module.records`, one
for each source in order. A source in a known language has a name, so that it has an object.
-/

namespace ModuleBuild

/-- The suffix of a path that follows another is its own, if it has one. -/
theorem Path.suffix_join {p q : Path} (h : q.segments ≠ []) : (p / q).suffix = q.suffix := by
  cases hq : q.isAbsolute
  · have hlast : (p.segments ++ q.segments).getLast? = q.segments.getLast? := by
      rw [List.getLast?_append, List.getLast?_eq_some_getLast h]
      rfl
    rw [join_of_not_isAbsolute hq, suffix, name?, hlast]
    rfl
  · rw [join_of_isAbsolute hq]

/-- A source in a known language has a name. -/
theorem Language.segments_ne_nil {source : Path} {l : Language}
    (h : Language.ofSource? source = some l) : source.segments ≠ [] := by
  intro hnil
  have hempty : source.suffix = "" := by
    rw [Path.suffix, Path.name?, hnil]
    rfl
  have hnone : ofSuffix? "" = none := by decide +kernel
  rw [ofSource?, hempty, hnone] at h
  exact absurd h (by simp)

/-- A source in a known language has an object. -/
theorem objectPath_isOk (output : Path) {source : Path} {l : Language}
    (h : Language.ofSource? source = some l) : ∃ p, objectPath output source = .ok p := by
  unfold objectPath
  cases hp : source.withSuffix? .object with
  | none => exact absurd (Path.withSuffix?_eq_none_iff.mp hp) (Language.segments_ne_nil h)
  | some p => exact ⟨_, rfl⟩

namespace Module

/-- The sources of a module that are in no known language. -/
def unsupported (m : Module) : List String :=
  m.sources.filter fun s ↦ (Language.ofSource? (.ofString s)).isNone

/-- The record of the object of a source that a module lists. -/
def record? (buildDir : Path) (m : Module) (source : String) : Option ObjectRecord := do
  let language ← Language.ofSource? (.ofString source)
  let object ← (objectPath (buildDir / m.directory) (.ofString source)).toOption
  return Ownership.record m language object (m.directory / Path.ofString source)

/-- The records of a module's objects, in the order of its sources. -/
def records (buildDir : Path) (m : Module) : List ObjectRecord :=
  m.sources.filterMap (m.record? buildDir)

/-- A record is that of the object of a source that the module lists. -/
theorem exists_of_mem_records {buildDir : Path} {m : Module} {r : ObjectRecord} (h : r ∈ m.records buildDir) :
    ∃ source ∈ m.sources, ∃ language object, Language.ofSource? (.ofString source) = some language ∧
      objectPath (buildDir / m.directory) (.ofString source) = .ok object ∧
      r = Ownership.record m language object (m.directory / Path.ofString source) := by
  obtain ⟨source, hsource, h⟩ := List.mem_filterMap.mp h
  simp only [record?, Option.bind_eq_bind, Option.bind_eq_some_iff, Option.pure_def, Option.some.injEq] at h
  obtain ⟨language, hlanguage, object, hobject, rfl⟩ := h
  exact ⟨source, hsource, language, object, hlanguage, toOption_eq_some.mp hobject, rfl⟩

/-- A record tells the language of its source, which stands in the module's directory. -/
theorem language_of_mem_records {buildDir : Path} {m : Module} {r : ObjectRecord}
    (h : r ∈ m.records buildDir) : Language.ofSource? r.source = some r.language := by
  obtain ⟨source, -, language, object, hlanguage, -, rfl⟩ := exists_of_mem_records h
  have hsuffix := Path.suffix_join (p := m.directory) (Language.segments_ne_nil hlanguage)
  simp only [Ownership.record, Language.ofSource?, hsuffix]
  exact hlanguage

end Module

namespace Ownership

/-- The first source that gets an object which another source has got before, among those that were
`given` theirs and those in front of it. -/
def clash? (m : Module) (given : List (Path × Path)) : List (Path × Path) → Option SourceError
  | [] => none
  | (object, source) :: rest =>
    match given.find? (·.1 = object) with
    | none => clash? m (given ++ [(object, source)]) rest
    | some (_, owner) =>
      if owner = source then clash? m (given ++ [(object, source)]) rest
      else some (.shared m.path object owner source)

/-- The owners of objects are the sources that were given theirs first. -/
def Owned (owners : Table Path Path) (given : List (Path × Path)) : Prop :=
  ∀ object, owners.find? object = (given.find? (·.1 = object)).map Prod.snd

theorem Owned.insert {owners : Table Path Path} {given : List (Path × Path)}
    (h : Owned owners given) {object : Path} (hnew : given.find? (·.1 = object) = none)
    (source : Path) : Owned (owners.insert object source) (given ++ [(object, source)]) := by
  intro k
  rw [Table.find?_insert, List.find?_append, h]
  by_cases hk : k = object
  · subst hk
    simp [hnew]
  · cases given.find? (·.1 = k) <;> simp [hk, Ne.symm hk]

theorem Owned.again {owners : Table Path Path} {given : List (Path × Path)}
    (h : Owned owners given) {object : Path} {g : Path × Path}
    (hold : given.find? (·.1 = object) = some g) (source : Path) :
    Owned owners (given ++ [(object, source)]) := by
  intro k
  rw [List.find?_append, h]
  by_cases hk : k = object
  · subst hk
    simp [hold]
  · cases given.find? (·.1 = k) <;> simp [Ne.symm hk]

/-- Objects are given to sources up to the first clash. -/
theorem claim_eq (m : Module) {owners : Table Path Path} {given : List (Path × Path)}
    (h : Owned owners given) (places : List (Path × Path)) :
    match clash? m given places with
    | some e => claim m owners places = .error e
    | none => ∃ owners', claim m owners places = .ok owners' ∧ Owned owners' (given ++ places) := by
  induction places generalizing owners given with
  | nil => exact ⟨owners, rfl, by simpa using h⟩
  | cons place rest ih =>
    obtain ⟨object, source⟩ := place
    have howner := h object
    rw [clash?, claim, howner]
    cases hfound : given.find? (·.1 = object) with
    | none => simpa using ih (h.insert hfound source)
    | some g =>
      obtain ⟨object', owner⟩ := g
      by_cases hs : owner = source
      · simpa [hs] using ih (h.again hfound source)
      · simp [hs]

/-- The objects of sources with their sources. -/
def claims (records : List ObjectRecord) : List (Path × Path) := records.map fun r ↦ (r.path, r.source)

private theorem place_records (o : Ownership) (m : Module) (sources : List String) :
    let languages := sources.filterMap fun s ↦ (Language.ofSource? (.ofString s)).map (s, ·)
    let records := sources.filterMap (m.record? o.buildDir)
    languages.mapM (fun s ↦ o.place m s.1) = .ok (claims records) ∧
      List.zipWith (fun s p ↦ record m s.2 p.1 p.2) languages (claims records) = records ∧
      languages.map Prod.snd = records.map (·.language) := by
  induction sources with
  | nil => exact ⟨rfl, rfl, rfl⟩
  | cons source sources ih =>
    obtain ⟨hplaces, hrecords, hlanguages⟩ := ih
    cases hl : Language.ofSource? (.ofString source) with
    | none => simpa [Module.record?, hl] using ⟨hplaces, hrecords, hlanguages⟩
    | some l =>
      obtain ⟨object, hobject⟩ := objectPath_isOk (o.buildDir / m.directory) hl
      have hplace : o.place m source = .ok (object, m.directory / Path.ofString source) := by
        simp [place, outputDir, hobject]
      have hrecord : m.record? o.buildDir source =
          some (record m l object (m.directory / Path.ofString source)) := by
        simp [Module.record?, hl, hobject, Except.toOption]
      simp only [List.filterMap_cons, hl, hrecord, Option.map_some, List.mapM_cons, hplace, hplaces,
        ok_bind, pure_eq_ok, claims, List.map_cons, List.zipWith_cons_cons] at hrecords ⊢
      exact ⟨rfl, congrArg _ hrecords, congrArg _ hlanguages⟩

/-- Sources in no known language are refused. -/
theorem collect_of_unsupported {o : Ownership} {m : Module} (h : m.unsupported ≠ []) :
    o.collect m = .error (.source (.unsupported m.path m.unsupported)) := by
  have hbad : m.unsupported.isEmpty = false := by simpa using h
  unfold collect validate
  simp only [Module.unsupported] at hbad ⊢
  simp [hbad]

/-- Collecting gives objects to the sources up to the first clash. -/
theorem collect_eq {o : Ownership} {m : Module} (h : m.unsupported = []) :
    o.collect m =
      match claim m o.sources (claims (m.records o.buildDir)) with
      | .error e => .error (.source e)
      | .ok owners =>
        .ok ({ o with
          sources := owners
          languages := appendNew o.languages ((m.records o.buildDir).map (·.language)) },
          m.records o.buildDir) := by
  obtain ⟨hplaces, hrecords, hlanguages⟩ := place_records o m m.sources
  have hbad : (m.unsupported).isEmpty := by simp [h]
  unfold collect validate
  simp only [Module.unsupported] at hbad
  simp only [hbad, if_true, mapError_ok, ok_bind, hplaces, hlanguages]
  cases hclaim : claim m o.sources (claims (m.records o.buildDir)) with
  | error e =>
    simp only [Module.records] at hclaim
    simp [hclaim]
  | ok owners =>
    simp only [Module.records] at hclaim ⊢
    simp only [hclaim, hrecords]
    rfl

end Ownership

end ModuleBuild
