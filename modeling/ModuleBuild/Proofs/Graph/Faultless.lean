import ModuleBuild.Proofs.Graph.Separation

/-!
# What is without a fault

Faults are looked for one occurrence after another, each against those in front of it. Whether there is one does not hang
on the order: there is none exactly if no target is declared twice, all sources are in known languages, and no object
has two sources (`Blueprint.fault?_eq_none`).
-/

namespace ModuleBuild

namespace Blueprint

/-- Targets are declared once, sources are in known languages, and objects belong to one source. -/
structure Faultless (b : Blueprint) : Prop where
  declared : b.declared.Nodup
  supported : ∀ o ∈ b.occurrences, o.module.unsupported = []
  separate : Ownership.Separate (Ownership.claims b.records)

variable {b : Blueprint}

theorem faultless_start (s : Settings) : ({ settings := s } : Blueprint).Faultless where
  declared := List.nodup_nil
  supported := by simp
  separate := by simp [Ownership.Separate, Ownership.claims, records]

/-- Behind occurrences without a fault there may stand one that has none against them. -/
theorem Faultless.push_iff (h : b.Faultless) (o : Occurrence) : (b.push o).Faultless ↔ b.faultOf o = none := by
  have hdeclared : (b.push o).declared.Nodup ↔
      ∀ p ∈ o.module.declaredTarget b.settings.targetDir, p ∉ b.declared := by
    rw [declared_push]
    cases o.module.declaredTarget b.settings.targetDir with
    | none => simpa using h.declared
    | some p =>
      rw [Option.toList_some, List.nodup_append]
      constructor
      · intro hnodup q hq hmem
        obtain rfl := Option.some.inj hq
        exact hnodup.2.2 p hmem p List.mem_cons_self rfl
      · intro hnew
        refine ⟨h.declared, List.nodup_singleton p, fun q hq q' hq' hqq ↦ hnew p rfl ?_⟩
        rwa [← List.mem_singleton.mp hq', ← hqq]
  have hsupported : (∀ o' ∈ (b.push o).occurrences, o'.module.unsupported = []) ↔ o.module.unsupported = [] := by
    refine ⟨fun hall ↦ hall o (by simp [push]), fun ho o' ho' ↦ ?_⟩
    rcases List.mem_append.mp ho' with ho' | ho'
    · exact h.supported o' ho'
    · rwa [List.mem_singleton.mp ho']
  have hseparate : Ownership.Separate (Ownership.claims (b.push o).records) ↔
      Ownership.clash? o.module (Ownership.claims b.records)
        (Ownership.claims (o.module.records b.settings.buildDir)) = none := by
    rw [Ownership.clash?_eq_none h.separate, records_push, Ownership.claims, List.map_append]
    rfl
  rw [faultOf_eq_none, ← hdeclared, ← hsupported, ← hseparate]
  exact ⟨fun hpush ↦ ⟨hpush.declared, hpush.supported, hpush.separate⟩, fun hall ↦ ⟨hall.1, hall.2.1, hall.2.2⟩⟩

/-- The first of some occurrences are without a fault if all are. -/
theorem Faultless.of_append {s : Settings} {os os' : List Occurrence} (h : (⟨s, os ++ os'⟩ : Blueprint).Faultless) :
    (⟨s, os⟩ : Blueprint).Faultless where
  declared := by
    have hdeclared := h.declared
    rw [Blueprint.declared, List.filterMap_append] at hdeclared
    exact (List.nodup_append.mp hdeclared).1
  supported := fun o ho ↦ h.supported o (List.mem_append_left _ ho)
  separate := by
    apply h.separate.mono
    rw [records, records, List.flatMap_append, Ownership.claims, Ownership.claims, List.map_append]
    exact List.subset_append_left ..

/-- There is no fault exactly if what is declared and listed fits together, in whatever order. -/
theorem fault?_eq_none : b.fault? = none ↔ b.Faultless := by
  constructor
  · intro h
    exact induction_of_fault h (faultless_start _) fun b o hb hfault ↦ (hb.push_iff o).mpr hfault
  · intro h
    -- every occurrence is without a fault against those in front of it, since these and it are
    have hfirst (os : List Occurrence) (b : Blueprint) (h : (⟨b.settings, b.occurrences ++ os⟩ : Blueprint).Faultless) :
        b.firstFault? os = none := by
      induction os generalizing b with
      | nil => rfl
      | cons o os ih =>
        have hpush : (⟨b.settings, b.occurrences ++ [o] ++ os⟩ : Blueprint).Faultless := by
          rwa [List.append_assoc, List.singleton_append]
        have hfault := ((h.of_append).push_iff o).mp hpush.of_append
        have hrest := ih (b.push o) hpush
        rw [firstFault?, hfault, hrest]
        rfl
    exact hfirst b.occurrences { settings := b.settings } h

end Blueprint

end ModuleBuild
