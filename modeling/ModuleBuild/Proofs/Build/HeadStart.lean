import ModuleBuild.Proofs.Build.Feasible

/-!
# What a build of some goals leaves to do

A build of some goals is a head start for a build of all targets (`HeadStart`). What it has made is not out of date any
more (`HeadStart.not_isRemade`). The other targets are out of date after it exactly if they were so before
(`HeadStart.isRemade_rest_iff`), although the next build does not know what this one has made: it is told by the times
of what was made. That goes wrong only if some target is made from an object that it does not name as its own and that
is compiled later.
-/

namespace ModuleBuild.Graph

open FileTree
open Relation (ReflTransGen)

variable {g : Graph} {o : BuildOptions} {project : Path} {now : Timestamp} {t t₁ : FileTree}
  {part compiled realized all rest : List Path} {p q i : Path} {x : Target}

theorem IsRemade.mono (h : g.IsRemade t project compiled p) (hsubset : compiled ⊆ all) :
    g.IsRemade t project all p := by
  obtain ⟨q, hreach, x, hx, hout⟩ := h
  exact ⟨q, hreach, x, hx, hout.imp_right fun ⟨i, hi, hi'⟩ ↦ ⟨i, hi, hi'.imp_right fun hmem ↦ hsubset hmem⟩⟩

theorem IsRemade.isTarget (h : g.IsRemade t project compiled p) : g.targets.contains p := by
  obtain ⟨q, hreach, x, hx, -⟩ := h
  rcases ReflTransGen.cases_head hreach with rfl | ⟨p', ⟨x', hx', -⟩, -⟩
  · exact Option.isSome_iff_exists.mpr ⟨x, hx⟩
  · exact Option.isSome_iff_exists.mpr ⟨x', hx'⟩

/-- Some targets, and all that they need, have been gone through, and some of what is stale has been made: `compiled`
are the objects and `realized` the targets that have been made, `all` are all objects that were stale. -/
structure HeadStart (g : Graph) (t t₁ : FileTree) (project : Path) (now : Timestamp)
    (part compiled realized all : List Path) : Prop where
  closed : ∀ p ∈ part, ∀ q, g.Needs p q → q ∈ part
  subset : compiled ⊆ all
  inside : ∀ p ∈ part, ∀ x, g.targets.find? p = some x → ∀ q ∈ x.objects ++ x.prereqs, q ∈ all → q ∈ compiled
  realized_iff : ∀ p, p ∈ realized ↔ p ∈ part ∧ g.IsRemade t project compiled p
  needs : ∀ p x, g.targets.find? p = some x → ∀ q ∈ x.objects ++ x.prereqs, q ∈ realized → g.Needs p q
  made : ∀ q ∈ compiled ++ realized, t₁.time? (project / q) = some now
  settled : ∀ p ∈ part, ∀ x, g.targets.find? p = some x → ¬Missing t₁ project p ∧
    ∀ q ∈ x.objects ++ x.prereqs, ¬Older t₁ project p q
  target : ∀ p x, g.targets.find? p = some x → p ∉ realized → t₁.time? (project / p) = t.time? (project / p)
  input : ∀ p x, g.targets.find? p = some x → ∀ q ∈ x.objects ++ x.prereqs, q ∉ all → q ∉ realized →
    t₁.time? (project / q) = t.time? (project / q)
  earlier : ∀ p, g.IsRemade t project all p → ∀ m, t.time? (project / p) = some m → m < now

namespace HeadStart

variable (h : g.HeadStart t t₁ project now part compiled realized all)

include h

theorem mem_of_reach (hp : p ∈ part) (hreach : ReflTransGen g.Needs p q) : q ∈ part := by
  induction hreach with
  | refl => exact hp
  | tail _ hneeds ih => exact h.closed _ ih _ hneeds

/-- Of the targets that have been gone through those were out of date that would have been so anyway. -/
theorem isRemade_iff (hp : p ∈ part) : g.IsRemade t project compiled p ↔ g.IsRemade t project all p := by
  refine ⟨fun hremade ↦ hremade.mono h.subset, fun ⟨q, hreach, x, hx, hout⟩ ↦ ⟨q, hreach, x, hx, ?_⟩⟩
  refine hout.imp_right fun ⟨i, hi, hi'⟩ ↦ ⟨i, hi, hi'.imp_right ?_⟩
  exact h.inside q (h.mem_of_reach hp hreach) x hx i hi

variable (hrest : ∀ q, q ∈ rest ↔ q ∈ all ∧ q ∉ compiled)

include hrest

/-- A target that has been gone through is not out of date. -/
theorem not_isRemade (hp : p ∈ part) : ¬g.IsRemade t₁ project rest p := by
  rintro ⟨q, hreach, x, hx, hout⟩
  have hq := h.mem_of_reach hp hreach
  obtain ⟨hthere, hnewer⟩ := h.settled q hq x hx
  rcases hout with hmissing | ⟨i, hi, holder | hi'⟩
  · exact hthere hmissing
  · exact hnewer i hi holder
  · obtain ⟨hall, hnot⟩ := (hrest i).mp hi'
    exact hnot (h.inside q hq x hx i hi hall)

/-- A target that is out of date was so before. -/
theorem isRemade_of_rest (hremade : g.IsRemade t₁ project rest p) : g.IsRemade t project all p := by
  obtain ⟨q, hreach, x, hx, hout⟩ := hremade
  suffices hq : g.IsRemade t project all q by
    obtain ⟨q', hreach', hout'⟩ := hq
    exact ⟨q', hreach.trans hreach', hout'⟩
  have hremade_of_mem {i : Path} (hi : i ∈ realized) : g.IsRemade t project all i :=
    ((h.realized_iff i).mp hi).2.mono h.subset
  by_cases hmade : q ∈ realized
  · exact hremade_of_mem hmade
  have hself := h.target q x hx hmade
  rcases hout with hmissing | ⟨i, hi, ⟨m, m', hm, hm', hlt⟩ | hi'⟩
  · exact ⟨q, .refl, x, hx, .inl (hself.symm.trans hmissing)⟩
  · by_cases hall : i ∈ all
    · exact ⟨q, .refl, x, hx, .inr ⟨i, hi, .inr hall⟩⟩
    by_cases hmade' : i ∈ realized
    · obtain ⟨q', hreach', hout'⟩ := hremade_of_mem hmade'
      exact ⟨q', hreach'.head (h.needs q x hx i hi hmade'), hout'⟩
    · have hinput := h.input q x hx i hi hall hmade'
      exact ⟨q, .refl, x, hx, .inr ⟨i, hi, .inl ⟨m, m', hself.symm.trans hm, hinput.symm.trans hm', hlt⟩⟩⟩
  · exact ⟨q, .refl, x, hx, .inr ⟨i, hi, .inr ((hrest i).mp hi').1⟩⟩

omit hrest in
/-- A target that has not been gone through is out of date if one of its inputs has been made. -/
theorem isOutdated_of_made (hp : p ∉ part) (hx : g.targets.find? p = some x) (hremade : g.IsRemade t project all p)
    (hi : i ∈ x.objects ++ x.prereqs) (hmade : i ∈ compiled ++ realized) : g.IsOutdated t₁ project rest p := by
  have hself := h.target p x hx fun hmem ↦ hp ((h.realized_iff p).mp hmem).1
  refine ⟨x, hx, ?_⟩
  cases hm : t.time? (project / p) with
  | none => exact .inl (hself.trans hm)
  | some m => exact .inr ⟨i, hi, .inl ⟨m, now, hself.trans hm, h.made i hmade, h.earlier p hremade m hm⟩⟩

/-- A target that has not been gone through is out of date if it was so before. -/
theorem isRemade_rest (hp : p ∉ part) (hremade : g.IsRemade t project all p) : g.IsRemade t₁ project rest p := by
  obtain ⟨q, hreach, hout⟩ := hremade
  induction hreach using ReflTransGen.head_induction_on with
  | refl =>
    obtain ⟨x, hx, hwhy⟩ := id hout
    have hself := h.target q x hx fun hmem ↦ hp ((h.realized_iff q).mp hmem).1
    have hmade {i : Path} (hi : i ∈ x.objects ++ x.prereqs) (hmem : i ∈ compiled ++ realized) :
        g.IsRemade t₁ project rest q := ⟨q, .refl, h.isOutdated_of_made hp hx ⟨q, .refl, hout⟩ hi hmem⟩
    rcases hwhy with hmissing | ⟨i, hi, hwhy⟩
    · exact ⟨q, .refl, x, hx, .inl (hself.trans hmissing)⟩
    by_cases hcompiled : i ∈ compiled
    · exact hmade hi (List.mem_append_left _ hcompiled)
    by_cases hall : i ∈ all
    · exact ⟨q, .refl, x, hx, .inr ⟨i, hi, .inr ((hrest i).mpr ⟨hall, hcompiled⟩)⟩⟩
    by_cases hrealized : i ∈ realized
    · exact hmade hi (List.mem_append_right _ hrealized)
    · obtain ⟨m, m', hm, hm', hlt⟩ := hwhy.resolve_right hall
      have hinput := h.input q x hx i hi hall hrealized
      exact ⟨q, .refl, x, hx, .inr ⟨i, hi, .inl ⟨m, m', hself.trans hm, hinput.trans hm', hlt⟩⟩⟩
  | head hneeds hreach ih =>
    next p p' =>
    by_cases hpart : p' ∈ part
    · -- what it needs has been made, and it is older than that
      have hremade' : g.IsRemade t project all p' := ⟨q, hreach, hout⟩
      have hrealized := (h.realized_iff p').mpr ⟨hpart, (h.isRemade_iff hpart).mpr hremade'⟩
      obtain ⟨x, hx, hprereq, -⟩ := id hneeds
      exact ⟨p, .refl, h.isOutdated_of_made hp hx ⟨q, hreach.head hneeds, hout⟩ (List.mem_append_right _ hprereq)
        (List.mem_append_right _ hrealized)⟩
    · obtain ⟨q', hreach', hout'⟩ := ih hpart
      exact ⟨q', hreach'.head hneeds, hout'⟩

/-- After a head start those targets are out of date that were so and have not been gone through. -/
theorem isRemade_rest_iff : g.IsRemade t₁ project rest p ↔ g.IsRemade t project all p ∧ p ∉ part :=
  ⟨fun hremade ↦ ⟨h.isRemade_of_rest hrest hremade, fun hp ↦ h.not_isRemade hrest hp hremade⟩,
    fun ⟨hremade, hp⟩ ↦ h.isRemade_rest hrest hp hremade⟩

end HeadStart

end ModuleBuild.Graph
