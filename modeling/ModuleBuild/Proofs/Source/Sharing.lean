import ModuleBuild.Proofs.Source.Collection

/-!
# Sources that share an object

Objects are given to sources one after another, up to the first clash. There is none exactly if no object is given to
two sources (`Ownership.clash?_eq_none`), and else it is at the first source that gets the object of another
(`Ownership.clash?_eq_some`).
-/

namespace ModuleBuild

namespace Ownership

variable {m : Module} {given places rest : List (Path × Path)} {object owner source : Path}

/-- No object is given to two sources. -/
def Separate (places : List (Path × Path)) : Prop := ∀ x ∈ places, ∀ y ∈ places, x.1 = y.1 → x.2 = y.2

theorem Separate.mono (h : Separate places) (hsub : given ⊆ places) : Separate given :=
  fun x hx y hy ↦ h x (hsub hx) y (hsub hy)

/-- An object may be given to a source if it is new, or if that source has it already. -/
theorem Separate.concat (h : Separate given) (hsource : ∀ x ∈ given, x.1 = object → x.2 = source) :
    Separate (given ++ [(object, source)]) := by
  intro x hx y hy hxy
  rw [List.mem_append, List.mem_singleton] at hx hy
  rcases hx with hx | rfl
  · rcases hy with hy | rfl
    · exact h x hx y hy hxy
    · exact hsource x hx hxy
  · rcases hy with hy | rfl
    · exact (hsource y hy hxy.symm).symm
    · rfl

/-- A source that may have its object gets it. -/
theorem clash?_cons (h : Separate (given ++ [(object, source)])) :
    clash? m given ((object, source) :: rest) = clash? m (given ++ [(object, source)]) rest := by
  rw [clash?]
  cases hfound : given.find? (·.1 = object) with
  | none => rfl
  | some g =>
    have hobject : g.1 = object := by simpa using List.find?_some hfound
    have hmem : g ∈ given := List.mem_of_find?_eq_some hfound
    have hsource : g.2 = source := h g (List.mem_append_left _ hmem) (object, source) (by simp) hobject
    exact if_pos hsource

/-- A source does not get the object of another. -/
theorem clash?_cons_of_mem (hs : Separate given) (h : (object, owner) ∈ given) (hne : owner ≠ source) :
    clash? m given ((object, source) :: rest) = some (.shared m.path object owner source) := by
  rw [clash?]
  cases hfound : given.find? (·.1 = object) with
  | none => simpa using List.find?_eq_none.mp hfound _ h
  | some g =>
    have hobject : g.1 = object := by simpa using List.find?_some hfound
    have howner : g.2 = owner := hs g (List.mem_of_find?_eq_some hfound) _ h hobject
    dsimp only
    rw [howner, if_neg hne]

/-- The next source may have its object, or another has it. -/
theorem Separate.concat_or (h : Separate given) (object source : Path) :
    Separate (given ++ [(object, source)]) ∨ ∃ owner, (object, owner) ∈ given ∧ owner ≠ source := by
  by_cases howner : ∃ owner, (object, owner) ∈ given ∧ owner ≠ source
  · exact .inr howner
  · refine .inl (h.concat fun x hx hobject ↦ ?_)
    subst hobject
    exact Decidable.byContradiction fun hne ↦ howner ⟨x.2, hx, hne⟩

/-- Objects that are given to sources without a clash are given to one source each. -/
theorem separate_of_clash (h : clash? m given places = none) (hs : Separate given) : Separate (given ++ places) := by
  induction places generalizing given with
  | nil => rwa [List.append_nil]
  | cons place rest ih =>
    rcases hs.concat_or place.1 place.2 with hplace | ⟨owner, hmem, hne⟩
    · rw [clash?_cons hplace] at h
      rw [← List.singleton_append, ← List.append_assoc]
      exact ih h hplace
    · rw [clash?_cons_of_mem hs hmem hne] at h
      cases h

/-- Objects that have one source each are given to them without a clash. -/
theorem clash?_of_separate (h : Separate (given ++ places)) : clash? m given places = none := by
  induction places generalizing given with
  | nil => rfl
  | cons place rest ih =>
    rw [← List.singleton_append, ← List.append_assoc] at h
    rw [clash?_cons (h.mono (List.subset_append_left ..))]
    exact ih h

theorem clash?_eq_none (h : Separate given) : clash? m given places = none ↔ Separate (given ++ places) :=
  ⟨fun hclash ↦ separate_of_clash hclash h, clash?_of_separate⟩

/-- A clash is at the first source that gets an object of another. -/
theorem clash?_eq_some (h : Separate given) {e : SourceError} :
    clash? m given places = some e ↔
      ∃ front object source back owner, places = front ++ (object, source) :: back ∧ Separate (given ++ front) ∧
        (object, owner) ∈ given ++ front ∧ owner ≠ source ∧ e = .shared m.path object owner source := by
  constructor
  · intro hclash
    induction places generalizing given with
    | nil => cases hclash
    | cons place rest ih =>
      rcases h.concat_or place.1 place.2 with hplace | ⟨owner, hmem, hne⟩
      · rw [clash?_cons hplace] at hclash
        obtain ⟨front, object, source, back, owner, rfl, hseparate, hmem, hne, rfl⟩ := ih hplace hclash
        rw [List.append_assoc, List.singleton_append] at hseparate hmem
        exact ⟨place :: front, object, source, back, owner, rfl, hseparate, hmem, hne, rfl⟩
      · rw [clash?_cons_of_mem h hmem hne] at hclash
        exact ⟨[], place.1, place.2, rest, owner, rfl, by simpa using h, by simpa using hmem, hne,
          (Option.some.inj hclash).symm⟩
  · rintro ⟨front, object, source, back, owner, rfl, hseparate, hmem, hne, rfl⟩
    induction front generalizing given with
    | nil =>
      rw [List.append_nil] at hmem
      exact clash?_cons_of_mem h hmem hne
    | cons place front ih =>
      rw [← List.singleton_append, ← List.append_assoc] at hseparate hmem
      have hplace : Separate (given ++ [place]) := hseparate.mono (List.subset_append_left ..)
      rw [List.cons_append, clash?_cons hplace]
      exact ih hplace hseparate hmem

end Ownership

end ModuleBuild
