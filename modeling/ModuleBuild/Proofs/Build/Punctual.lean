import ModuleBuild.Proofs.Build.Products
import ModuleBuild.Proofs.Build.Territory

/-!
# What is made punctually is fresh

A graph is made punctually if the targets that commands write are, as they are written, not older than anything that
is there (`Punctual`). This is asked of the trees that a build may come to, and only of commands that succeed; it
holds of tools that write everything at one time (`Punctual.of_obeys`). Then every target is renewed at its turn
(`Punctual.renewing`), and a build that succeeds settles all targets that it goes through
(`Builds.settled_of_punctual`).
-/

namespace ModuleBuild.Graph

open FileTree

variable {g : Graph} {o : BuildOptions} {now : Timestamp} {t t₁ t' : FileTree}
  {commands : List (List String)}

/-- While the graph is built from a tree, commands that succeed write targets at a time that is not before that of
anything there. Compiles change at most their object and the listing beside it, the commands of targets nothing but
the target. -/
structure Punctual (g : Graph) (o : BuildOptions) (t : FileTree) : Prop where
  compile : ∀ a command t₁ t' r, g.Passes o Response.IsSuccess t t₁ →
    g.compileActions.find? a.object.path = some a → a.command.words? = some command →
    o.tools t₁ o.project command = (t', r) → r.IsSuccess →
      ∃ ps : List Path, (∀ q ∈ ps, a.object.MayWrite o.project q) ∧ t₁.Alters t' ps
  realize : ∀ a command t₁ t' r, g.Passes o Response.IsSuccess t t₁ →
    g.targetActions.find? a.target = some a → a.command.words? = some command →
    o.tools t₁ o.project command = (t', r) → r.IsSuccess →
      ∃ now, t₁.NoLater now ∧ t₁.Written t' now [o.project / a.target]

/-- A step starts a command, or else the tree evolves by it. -/
theorem Step.evolves_or_starts {ends : Response → Prop} (ht : t.WellFormed) (now : Timestamp)
    (h : g.Step o ends t t') :
    t.Evolves t' now Set.univ Set.univ ∨
      (∃ a command r, g.compileActions.find? a.object.path = some a ∧ a.command.words? = some command ∧
        o.tools t o.project command = (t', r) ∧ ends r) ∨
      ∃ a command r, g.targetActions.find? a.target = some a ∧ a.command.words? = some command ∧
        o.tools t o.project command = (t', r) ∧ ends r := by
  cases h with
  | @directory q p _ _ _ =>
    exact .inl ((evolves_ensureDirectory_fst ht now p).1.mono (Set.subset_univ _) (Set.subset_univ _))
  | compiler action words tool ending => exact .inr (.inl ⟨_, _, _, action, words, tool, ending⟩)
  | descriptor object dependencies write =>
    have hev := (evolves_write ht write (.inl rfl : t.clock = t.clock ∨ t.clock = now)).1
    exact .inl (hev.mono (Set.subset_univ _) (Set.subset_univ _))
  | listing object listing remove =>
    exact .inl ((evolves_remove now remove).1.mono (Set.subset_univ _) (Set.subset_univ _))
  | maker action words tool ending => exact .inr (.inr ⟨_, _, _, action, words, tool, ending⟩)

namespace Punctual

/-- Tools that write everything at one time make a graph punctually, from a tree where nothing is later. -/
theorem of_obeys (hg : g.Coherent) (htools : o.tools.Obeys g o.project now) (ht : t.WellFormed)
    (hlater : t.NoLater now) : g.Punctual o t := by
  have hevolves {t₁ : FileTree} (hpasses : g.Passes o Response.IsSuccess t t₁) :
      t.Evolves t₁ now Set.univ Set.univ := by
    induction hpasses with
    | refl => exact .refl ..
    | tail hpasses hstep ih =>
      refine ih.trans ?_
      rcases hstep.evolves_or_starts (ih.wellFormed ht) now with
        hev | ⟨a, command, r, action, words, tool, ending⟩ | ⟨a, command, r, action, words, tool, ending⟩
      · exact hev
      · exact (evolves_compiler hg htools action words tool ending).1.mono (Set.subset_univ _) (Set.empty_subset _)
      · exact (htools.realize _ a command _ _ r action words tool ending).evolves.mono (Set.subset_univ _)
          (Set.empty_subset _)
  refine ⟨fun a command t₁ t' r hpasses action words tool ending ↦ ?_,
    fun a command t₁ t' r hpasses action words tool ending ↦
      ⟨now, (hevolves hpasses).noLater hlater, htools.realize _ a command t₁ t' r action words tool ending⟩⟩
  rcases htools.compile _ a command t₁ t' r action words tool ending with hwritten | ⟨l, hl, hwritten⟩
  · exact ⟨_, by simp [ObjectRecord.MayWrite], hwritten.alters⟩
  · exact ⟨_, by simp [ObjectRecord.MayWrite, hl], hwritten.alters⟩

variable (h : g.Punctual o t)

include h

/-- What is come to by steps that succeed is a tree that has been touched. -/
theorem touches_passes (ht : t.WellFormed) (hpasses : g.Passes o Response.IsSuccess t t₁) :
    t.Touches t₁ Set.univ Set.univ := by
  induction hpasses with
  | refl => exact .refl ..
  | tail hpasses hstep ih =>
    refine ih.trans ?_
    rcases hstep.evolves_or_starts (ih.wellFormed ht) t.clock with
      hev | ⟨a, command, r, action, words, tool, ending⟩ | ⟨a, command, r, action, words, tool, ending⟩
    · exact hev.toTouches
    · obtain ⟨ps, -, halters⟩ := h.compile a command _ _ r hpasses action words tool ending
      exact halters.touches.mono (Set.subset_univ _) (Set.empty_subset _)
    · obtain ⟨now, -, hwritten⟩ := h.realize a command _ _ r hpasses action words tool ending
      exact hwritten.alters.touches.mono (Set.subset_univ _) (Set.empty_subset _)

/-- Targets are renewed in the trees that the build may come to. -/
theorem renewing (hg : g.Coherent) (ht : t.WellFormed) :
    g.Renewing o (g.Passes o Response.IsSuccess t) := by
  intro p a t₁ t' command hpasses ha hr
  obtain ⟨rfl, -⟩ := hg.targetAction p a ha
  refine ⟨hpasses.trans (passes_realizes ha hg (fun _ hr ↦ hr) hr), ?_⟩
  obtain ⟨t₂, hparent, r, hw, htool, hr⟩ := hr
  have hw₁ := (h.touches_passes ht hpasses).wellFormed ht
  have hensure := (evolves_ensureDirectory_fst hw₁ t₁.clock (o.project / a.target).parent).1.toTouches
  rw [hparent] at hensure
  obtain ⟨now, hlater, hwritten⟩ :=
    h.realize a command t₂ t' r (hpasses.trans (passes_ensureTarget ha hg hparent)) ha hw htool hr
  obtain ⟨bytes, hstat⟩ := hwritten.stat_eq_ok List.mem_cons_self
  refine ⟨?_, now, time?_eq_some.mpr ⟨_, hstat, rfl⟩, fun q m hm ↦ ?_⟩
  · refine (hensure.mono (Set.empty_subset _) (Set.subset_univ _)).trans
      (hwritten.evolves.toTouches.mono ?_ (Set.empty_subset _))
    rintro l ⟨q, hq, rfl⟩
    rw [List.mem_singleton.mp hq, hensure.place_eq]
    rfl
  · have hle := hlater.le_of_time? (hensure.time?_eq_some (Set.notMem_empty _) hm)
    rw [Timestamp.lt_iff]
    rw [Timestamp.le_iff] at hle
    omega

end Punctual

/-- Compiles that succeed are made of steps that do. -/
theorem passes_compilesAll (hg : g.Coherent) {as : List CompileAction}
    (has : ∀ a ∈ as, g.compileActions.find? a.object.path = some a) (h : CompilesAll o as t t' commands) :
    g.Passes o Response.IsSuccess t t' := by
  induction h with
  | nil => exact .refl _
  | cons first rest ih =>
    exact (passes_compiles (has _ List.mem_cons_self) hg (fun _ hr ↦ hr) first).trans
      (ih fun a ha ↦ has a (List.mem_cons_of_mem _ ha))

/-- A build that succeeds settles the targets that it goes through. -/
theorem Builds.settled_of_punctual {goals order : List Path} {result : BuildResult} {compiled : FileTree}
    {compiles realizes : List (List String)} {as : List CompileAction}
    (h : Builds g o goals t result t' commands order as compiled compiles realizes) (hg : g.Coherent)
    (ht : t.WellFormed) (hapart : g.TargetsApart t o.project) (hpunctual : g.Punctual o t) :
    ∀ p ∈ order, ∀ a, g.targetActions.find? p = some a → Settled t' o.project a := by
  have hpasses := passes_compilesAll hg (h.action hg) h.compilesAll
  exact settled_of_renewing hg hapart (hpunctual.renewing hg ht) h.realizesAll hpasses
    (hpunctual.touches_passes ht hpasses).current (readyOrder_of_targetOrder h.targetOrder) (h.objectsKnown hg)

end ModuleBuild.Graph
