import ModuleBuild.Proofs.Module.Unfolding

/-!
# What unfolding comes to

Unfolding takes up one reference after another (`Reaches`), each where it stands, until one leads nowhere: the failure
of that reference is the ending (`unfolds_some_iff`). What holds of a module with those above it, and is handed on along
every reference that is taken up, holds wherever modules occur (`Unfolds.lineage`).

With that much to spare as modules nest below a module, a walk through its references goes as they unfold, and more
changes nothing (`Unfolds.enters`, `Unfolds.walkReferences_eq`).
-/

namespace ModuleBuild

namespace Walk

/-- What comes after a walk matters only if the walk comes to its end. -/
theorem andThen_congr {w : Walk} {next next' : Unit → Walk} (h : w.failure? = none → next () = next' ()) :
    w.andThen next = w.andThen next' := by
  induction w with
  | stop f? =>
    cases f? with
    | some f => rfl
    | none => exact h rfl
  | visit v rest ih =>
    rw [andThen, andThen]
    congr 1
    funext u
    exact ih u h

end Walk

namespace Module

variable {t : FileTree} {project : Path} {m child : Module} {above : List Module} {rs : List String}
  {os before : List Occurrence} {ending : Option Failure} {o : Occurrence} {reference : String}

/-- A reference leads to the module that is loaded from the descriptor for which it stands. -/
theorem load_of_refer (h : refer t project m above reference = .ok child) :
    submodulePath t project m.directory reference = .ok child.path ∧ load t project child.path = .ok child := by
  unfold refer at h
  simp only [bind_eq_ok, mapError_eq_ok] at h
  obtain ⟨path, hpath, h⟩ := h
  split at h
  · simp at h
  · rw [mapError_eq_ok] at h
    obtain ⟨rfl, -⟩ := path_of_load h
    exact ⟨hpath, h⟩

/-- Unfolding the references of `m`, a module below those of `above`, takes up a reference where a module occurs: what
stands before it unfolds to its end, to the occurrences `before`. -/
inductive Reaches (t : FileTree) (project : Path) :
    (m : Module) → (above : List Module) → (references : List String) → (before : List Occurrence) →
      Occurrence → String → Prop where
  | here {m : Module} {above : List Module} {r : String} {rs : List String} :
      Reaches t project m above (r :: rs) [] ⟨m, above⟩ r
  | inside {m child : Module} {above : List Module} {r r' : String} {rs : List String}
      {before : List Occurrence} {o : Occurrence} (h : refer t project m above r = .ok child)
      (inner : Reaches t project child (m :: above) child.submodules before o r') :
      Reaches t project m above (r :: rs) (⟨child, m :: above⟩ :: before) o r'
  | past {m child : Module} {above : List Module} {r r' : String} {rs : List String}
      {os before : List Occurrence} {o : Occurrence} (h : refer t project m above r = .ok child)
      (inner : Unfolds t project child (m :: above) child.submodules os none)
      (rest : Reaches t project m above rs before o r') :
      Reaches t project m above (r :: rs) (⟨child, m :: above⟩ :: os ++ before) o r'

/-- A reference is taken up in `m`, or in a module that occurs before. -/
theorem Reaches.occurs (h : Reaches t project m above rs before o reference) :
    o = ⟨m, above⟩ ∧ reference ∈ rs ∨ o ∈ before ∧ reference ∈ o.module.submodules := by
  induction h with
  | here => exact .inl ⟨rfl, List.mem_cons_self⟩
  | inside href inner ih =>
    rcases ih with ⟨rfl, hr⟩ | ⟨ho, hr⟩
    · exact .inr ⟨List.mem_cons_self, hr⟩
    · exact .inr ⟨List.mem_cons_of_mem _ ho, hr⟩
  | past href inner rest ih =>
    rcases ih with ⟨ho, hr⟩ | ⟨ho, hr⟩
    · exact .inl ⟨ho, List.mem_cons_of_mem _ hr⟩
    · exact .inr ⟨List.mem_append_right _ ho, hr⟩

/-- What occurs before a reference is taken up occurs first. -/
theorem Reaches.isPrefix (hr : Reaches t project m above rs before o reference)
    (h : Unfolds t project m above rs os ending) : before <+: os := by
  induction hr generalizing os ending with
  | here => exact List.nil_prefix
  | inside href _ ih =>
    cases h with
    | broken h => simp [href] at h
    | cut h inner =>
      obtain rfl := Except.ok.inj (href.symm.trans h)
      exact List.cons_prefix_cons.mpr ⟨rfl, ih inner⟩
    | next h inner _ =>
      obtain rfl := Except.ok.inj (href.symm.trans h)
      exact List.cons_prefix_cons.mpr ⟨rfl, (ih inner).trans (List.prefix_append _ _)⟩
  | past href inner _ ih =>
    cases h with
    | broken h => simp [href] at h
    | cut h inner' =>
      obtain rfl := Except.ok.inj (href.symm.trans h)
      exact absurd (inner.unique inner').2 (by simp)
    | next h inner' rest =>
      obtain rfl := Except.ok.inj (href.symm.trans h)
      obtain ⟨rfl, -⟩ := inner.unique inner'
      exact (List.prefix_append_right_inj _).mpr (ih rest)

/-- What holds of a module with those above it holds where a reference is taken up, if it is handed on along
references. -/
theorem Reaches.lineage {P : List Module → Prop} (h : Reaches t project m above rs before o reference)
    (hm : P (m :: above))
    (hstep : ∀ m above r child, P (m :: above) → refer t project m above r = .ok child → P (child :: m :: above)) :
    P (o.module :: o.ancestors) := by
  induction h with
  | here => exact hm
  | inside href _ ih => exact ih (hstep _ _ _ _ hm href)
  | past _ _ _ ih => exact ih hm

/-- What holds of a module with those above it holds of all that occurs below, if it is handed on along the references
that are taken up. -/
theorem Unfolds.lineage {P : List Module → Prop} (h : Unfolds t project m above rs os ending) (hm : P (m :: above))
    (hstep : ∀ before o r child, Reaches t project m above rs before o r → P (o.module :: o.ancestors) →
      refer t project o.module o.ancestors r = .ok child → P (child :: o.module :: o.ancestors)) :
    ∀ o ∈ os, P (o.module :: o.ancestors) := by
  induction h with
  | done => simp
  | broken _ => simp
  | cut href _ ih =>
    have hchild := hstep _ _ _ _ .here hm href
    intro o ho
    rcases List.mem_cons.mp ho with rfl | ho
    · exact hchild
    · exact ih hchild (fun before o r child hr ↦ hstep _ o r child (.inside href hr)) o ho
  | next href inner _ ih ihrest =>
    have hchild := hstep _ _ _ _ .here hm href
    intro o ho
    rcases List.mem_append.mp ho with ho | ho
    · rcases List.mem_cons.mp ho with rfl | ho
      · exact hchild
      · exact ih hchild (fun before o r child hr ↦ hstep _ o r child (.inside href hr)) o ho
    · exact ihrest hm (fun before o r child hr ↦ hstep _ o r child (.past href inner hr)) o ho

/-- Modules occur as they are loaded. -/
theorem Unfolds.load_eq {root : Module} {path : Path} (h : Unfolds t project root [] rs os ending)
    (hroot : load t project path = .ok root) :
    ∀ o ∈ (⟨root, []⟩ :: os : List Occurrence), load t project o.module.path = .ok o.module := by
  have hload : load t project root.path = .ok root := by rwa [(path_of_load hroot).1]
  intro o ho
  rcases List.mem_cons.mp ho with rfl | ho
  · exact hload
  · have hall := h.lineage (P := fun lineage ↦ ∀ m ∈ lineage.head?, load t project m.path = .ok m)
      (by simpa using hload) (fun _ o r child _ _ href ↦ by simpa using (load_of_refer href).2) o ho
    simpa using hall

/-- An unfolding that ends early ends with the failure of a reference, before which everything has occurred. -/
theorem Unfolds.exists_reaches {f : Failure} (h : Unfolds t project m above rs os ending) (hf : ending = some f) :
    ∃ o r, Reaches t project m above rs os o r ∧ refer t project o.module o.ancestors r = .error f := by
  induction h with
  | done => cases hf
  | broken href => exact ⟨_, _, .here, Option.some.inj hf ▸ href⟩
  | cut href _ ih =>
    obtain ⟨o, r, hr, hfail⟩ := ih hf
    exact ⟨o, r, .inside href hr, hfail⟩
  | next href inner _ _ ih =>
    obtain ⟨o, r, hr, hfail⟩ := ih hf
    exact ⟨o, r, .past href inner hr, hfail⟩

/-- At a reference that fails the unfolding ends. -/
theorem Reaches.unfolds {f : Failure} (h : Reaches t project m above rs before o reference)
    (hfail : refer t project o.module o.ancestors reference = .error f) :
    Unfolds t project m above rs before (some f) := by
  induction h with
  | here => exact .broken hfail
  | inside href _ ih => exact .cut href (ih hfail)
  | past href inner _ ih => exact .next href inner (ih hfail)

/-- An unfolding ends early where a reference fails. -/
theorem unfolds_some_iff {f : Failure} : Unfolds t project m above rs os (some f) ↔
    ∃ o r, Reaches t project m above rs os o r ∧ refer t project o.module o.ancestors r = .error f :=
  ⟨fun h ↦ h.exists_reaches rfl, fun ⟨_, _, hr, hfail⟩ ↦ hr.unfolds hfail⟩

/-! ### As deep as modules nest -/

/-- A visit is that of an occurrence, in the scope of the modules that lead there. -/
structure Enters (targetDir : Path) (v : Visit) (o : Occurrence) : Prop where
  module : v.module = o.module
  inScope : InScope targetDir v.scope (o.module :: o.ancestors)

variable {targetDir : Path} {scope : Scope} {depth : Nat}

theorem InScope.enters (h : InScope targetDir scope (m :: above)) : Enters targetDir ⟨m, scope⟩ ⟨m, above⟩ := ⟨rfl, h⟩

/-- The first of some references is walked along, and then the others. -/
theorem walkReferences_cons (hs : InScope targetDir scope (m :: above)) (depth : Nat) (r : String) (rs : List String) :
    walkReferences t project targetDir depth m scope (r :: rs) =
      (Walk.onward (fun child ↦ walk t project targetDir depth child scope) (refer t project m above r)).andThen
        fun _ ↦ walkReferences t project targetDir depth m scope rs := by
  rw [walkReferences, Walk.all, follow_eq_refer hs]
  rfl

/-- Below a module that occurs there is one less to spare. -/
private theorem exists_spare {child : Module}
    (hd : ∀ o ∈ (⟨child, m :: above⟩ :: os : List Occurrence), o.ancestors.length ≤ above.length + depth) :
    ∃ d, depth = d + 1 ∧ ∀ o ∈ os, o.ancestors.length ≤ (m :: above).length + d := by
  have hchild := hd ⟨child, m :: above⟩ List.mem_cons_self
  simp only [List.length_cons] at hchild ⊢
  refine ⟨depth - 1, by omega, fun o ho ↦ ?_⟩
  have := hd o (List.mem_cons_of_mem _ ho)
  omega

/-- A walk through references goes as they unfold, if there is as much to spare as modules nest. -/
theorem Unfolds.enters (h : Unfolds t project m above rs os ending) (hs : InScope targetDir scope (m :: above))
    (hd : ∀ o ∈ os, o.ancestors.length ≤ above.length + depth) :
    List.Forall₂ (Enters targetDir) (walkReferences t project targetDir depth m scope rs).visits os ∧
      (walkReferences t project targetDir depth m scope rs).failure? = ending := by
  induction h generalizing scope depth with
  | done => exact ⟨.nil, rfl⟩
  | broken href =>
    rw [walkReferences_cons hs, href]
    exact ⟨.nil, rfl⟩
  | @cut m child above r rs os f href _ ih =>
    obtain ⟨d, rfl, hd'⟩ := exists_spare hd
    have hs' := hs.enter child
    obtain ⟨hvisits, hfail⟩ := ih hs' hd'
    rw [walkReferences_cons hs, href, Walk.onward_ok, walk_succ, Walk.visits_andThen, Walk.failure?_andThen]
    simp only [Walk.visits, Walk.failure?, hfail]
    exact ⟨.cons hs'.enters hvisits, rfl⟩
  | @next m child above r rs os os' ending href _ _ ih ihrest =>
    obtain ⟨d, rfl, hd'⟩ := exists_spare fun o ho ↦ hd o (List.mem_append_left _ ho)
    have hs' := hs.enter child
    obtain ⟨hvisits, hfail⟩ := ih hs' hd'
    obtain ⟨hvisits', hfail'⟩ := ihrest hs fun o ho ↦ hd o (List.mem_append_right _ ho)
    rw [walkReferences_cons hs, href, Walk.onward_ok, walk_succ, Walk.visits_andThen, Walk.failure?_andThen]
    simp only [Walk.visits, Walk.failure?, hfail]
    exact ⟨List.rel_append (.cons hs'.enters hvisits) hvisits', hfail'⟩

theorem exists_enters {vs : List Visit} (h : List.Forall₂ (Enters targetDir) vs os) {v : Visit} (hv : v ∈ vs) :
    ∃ o ∈ os, Enters targetDir v o := by
  induction h with
  | nil => simp at hv
  | cons hvo _ ih =>
    rcases List.mem_cons.mp hv with rfl | hv
    · exact ⟨_, List.mem_cons_self, hvo⟩
    · obtain ⟨o, ho, hvo⟩ := ih hv
      exact ⟨o, List.mem_cons_of_mem _ ho, hvo⟩

/-- More to spare than modules nest changes nothing. -/
theorem Unfolds.walkReferences_eq {n : Nat} (h : Unfolds t project m above rs os ending)
    (hs : InScope targetDir scope (m :: above)) (hd : ∀ o ∈ os, o.ancestors.length ≤ above.length + depth)
    (hn : depth ≤ n) :
    walkReferences t project targetDir n m scope rs = walkReferences t project targetDir depth m scope rs := by
  induction h generalizing scope depth n with
  | done => simp only [walkReferences, Walk.all]
  | broken href => simp only [walkReferences_cons hs, href, Walk.onward_error, Walk.andThen]
  | @cut m child above r rs os f href below ih =>
    obtain ⟨d, rfl, hd'⟩ := exists_spare hd
    obtain ⟨k, rfl⟩ : ∃ k, n = k + 1 := ⟨n - 1, by omega⟩
    have hs' := hs.enter child
    have hfail := (below.enters hs' hd').2
    rw [walkReferences_cons hs, walkReferences_cons hs, href, Walk.onward_ok, Walk.onward_ok, walk_succ, walk_succ,
      ih hs' hd' (Nat.le_of_succ_le_succ hn)]
    -- the walk ends in the module that the reference leads to
    apply Walk.andThen_congr
    intro hnone
    exact absurd (hfail.symm.trans hnone) (by simp)
  | @next m child above r rs os os' ending href below _ ih ihrest =>
    obtain ⟨d, rfl, hd'⟩ := exists_spare fun o ho ↦ hd o (List.mem_append_left _ ho)
    obtain ⟨k, rfl⟩ : ∃ k, n = k + 1 := ⟨n - 1, by omega⟩
    have hs' := hs.enter child
    rw [walkReferences_cons hs, walkReferences_cons hs, href, Walk.onward_ok, Walk.onward_ok, walk_succ, walk_succ,
      ih hs' hd' (Nat.le_of_succ_le_succ hn),
      ihrest hs (fun o ho ↦ hd o (List.mem_append_right _ ho)) hn]

end Module

end ModuleBuild
