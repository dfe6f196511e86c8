import ModuleBuild.Proofs.Source.Sharing
import ModuleBuild.Proofs.Table

/-!
# One module after another

A project asks for the objects of its modules one after another. A request checks all sources of its module and all
their objects first, on a copy of what is owned, and then takes the objects over one by one, which comes to what
`Ownership.collect` does (`Ownership.request_run`). Whatever modules are asked for, in whatever order, the records that
are listed give each object one source in one language, a request is refused exactly if there is a reason for it in
what is listed before, and those that are refused might as well not have been made (`Ownership.requests_sound`).
-/

namespace ModuleBuild

namespace Ownership

/-- Steps of a request for the objects of a module. What they change stays changed even if a later one fails. -/
abbrev Request := ExceptT CollectError (StateM Ownership)

/-- The answer to a request. -/
abbrev Answer := Except CollectError (List ObjectRecord)

/-- A check that changes nothing. -/
def Request.check {α : Type} (answer : Except CollectError α) : Request α := ExceptT.mk (pure answer)

/-- Take over the objects of a module with their sources, one after another. -/
def takeOver (m : Module) : List ((String × Language) × (Path × Path)) → Request (List ObjectRecord)
  | [] => return []
  | ((_, language), (object, source)) :: rest => do
    modify fun o ↦ { o with
      languages := appendNew o.languages [language]
      sources := o.sources.insert object source }
    return record m language object source :: (← takeOver m rest)

/-- Ask for the objects of a module. -/
def request (m : Module) : Request (List ObjectRecord) := do
  let sources ← Request.check ((validate m).mapError .source)
  let o ← get
  let places ← Request.check ((sources.mapM fun s ↦ o.place m s.1).mapError .nameless)
  let _ ← Request.check ((claim m o.sources places).mapError .source)
  takeOver m (sources.zip places)

/-- Ask for the objects of modules, one after another. -/
def requests (ms : List Module) : StateM Ownership (List Answer) := ms.mapM fun m ↦ (request m).run

variable {m : Module} {o o' : Ownership}

/-- Objects are given to their sources by inserting them, which changes nothing where a source has its object. -/
theorem claim_eq_foldl {owners owners' : Table Path Path} {places : List (Path × Path)}
    (h : claim m owners places = .ok owners') : owners' = places.foldl (fun t p ↦ t.insert p.1 p.2) owners := by
  induction places generalizing owners with
  | nil => exact (Except.ok.inj h).symm
  | cons place rest ih =>
    rw [claim] at h
    rw [List.foldl_cons]
    cases hfind : owners.find? place.1 with
    | none =>
      rw [hfind] at h
      exact ih h
    | some owner =>
      rw [hfind] at h
      dsimp only at h
      split at h
      · next howner =>
        rw [Table.insert_eq_self (howner ▸ hfind)]
        exact ih h
      · cases h

section Running

variable {α β : Type}

theorem check_bind_run (x : Except CollectError α) (f : α → Request β) (o : Ownership) :
    (Request.check x >>= f).run.run o = match x with
      | .ok a => (f a).run.run o
      | .error e => (.error e, o) := by
  cases x <;> rfl

theorem get_bind_run (f : Ownership → Request β) (o : Ownership) : (get >>= f).run.run o = (f o).run.run o := rfl

theorem modify_bind_run (g : Ownership → Ownership) (f : Unit → Request β) (o : Ownership) :
    (modify g >>= f).run.run o = (f ()).run.run (g o) := rfl

theorem bind_run {x : Request α} {a : α} (h : x.run.run o = (.ok a, o')) (f : α → Request β) :
    (x >>= f).run.run o = (f a).run.run o' := by
  rw [ExceptT.run_bind, StateT.run_bind, h]
  rfl

end Running

/-- Objects are taken over without fail, each with its language and its source. -/
theorem takeOver_run (m : Module) (places : List ((String × Language) × (Path × Path))) (o : Ownership) :
    (takeOver m places).run.run o = (.ok (places.map fun p ↦ record m p.1.2 p.2.1 p.2.2),
      { o with
        languages := appendNew o.languages (places.map (·.1.2))
        sources := (places.map (·.2)).foldl (fun t p ↦ t.insert p.1 p.2) o.sources }) := by
  induction places generalizing o with
  | nil => rfl
  | cons place rest ih =>
    rw [takeOver, modify_bind_run, bind_run (ih _), ← appendNew_append]
    rfl

/-- A request does what collecting does. What is owned stays if it is refused. -/
theorem request_run (m : Module) (o : Ownership) :
    (request m).run.run o = match o.collect m with
      | .ok (o', records) => (.ok records, o')
      | .error e => (.error e, o) := by
  unfold request collect
  rw [check_bind_run]
  cases validate m with
  | error e => rfl
  | ok sources =>
    simp only [mapError_ok, ok_bind, get_bind_run, check_bind_run]
    cases hplaces : sources.mapM fun s ↦ o.place m s.1 with
    | error e => rfl
    | ok places =>
      simp only [mapError_ok, ok_bind]
      cases hclaim : claim m o.sources places with
      | error e => rfl
      | ok owners =>
        have hlength := length_of_mapM hplaces
        have hplaces' : (sources.zip places).map (·.2) = places := List.map_snd_zip (by omega)
        have hlanguages : (sources.zip places).map (·.1.2) = sources.map Prod.snd := by
          have hfst : (sources.zip places).map Prod.fst = sources := List.map_fst_zip (by omega)
          rw [← congrArg (List.map Prod.snd) hfst, List.map_map]
          rfl
        have hrecords : (sources.zip places).map (fun p ↦ record m p.1.2 p.2.1 p.2.2) =
            List.zipWith (fun s p ↦ record m s.2 p.1 p.2) sources places := by
          rw [List.zip_eq_zipWith, List.map_zipWith]
        simp only [mapError_ok, ok_bind, takeOver_run, claim_eq_foldl hclaim, pure_eq_ok, hplaces', hlanguages,
          hrecords]

/-- A request that is refused leaves what is owned as it was. -/
theorem request_eq_self {e : CollectError} (h : (request m).run.run o = (.error e, o')) : o' = o := by
  rw [request_run] at h
  cases hcollect : o.collect m with
  | ok result =>
    rw [hcollect] at h
    cases congrArg Prod.fst h
  | error e' =>
    rw [hcollect] at h
    exact (congrArg Prod.snd h).symm

/-- The records that are listed in answers. -/
def listed (answers : List Answer) : List ObjectRecord := answers.flatMap fun a ↦ a.toOption.getD []

/-- The modules whose requests were not refused. -/
def granted (ms : List Module) (answers : List Answer) : List Module :=
  ((ms.zip answers).filter fun x ↦ x.2.isOk).map Prod.fst

/-- Why a request is refused, if the records of `given` are listed before it. -/
inductive Refusal (buildDir : Path) (given : List ObjectRecord) (m : Module) : CollectError → Prop
  /-- Sources in no known language. -/
  | unsupported (h : m.unsupported ≠ []) : Refusal buildDir given m (.source (.unsupported m.path m.unsupported))
  /-- The first of the sources whose object another source has, which got it before or in front of it. -/
  | shared {front back : List ObjectRecord} {x y : ObjectRecord} (supported : m.unsupported = [])
      (records : m.records buildDir = front ++ x :: back) (first : Separate (claims (given ++ front)))
      (owner : y ∈ given ++ front) (path : y.path = x.path) (source : y.source ≠ x.source) :
      Refusal buildDir given m (.source (.shared m.path x.path y.source x.source))

theorem claims_append (xs ys : List ObjectRecord) : claims (xs ++ ys) = claims xs ++ claims ys := List.map_append

/-- What is owned after the records of `given` are listed. -/
structure Holds (buildDir : Path) (given : List ObjectRecord) (o : Ownership) : Prop where
  buildDir : o.buildDir = buildDir
  owned : Owned o.sources (claims given)
  separate : Separate (claims given)
  languages : ∀ x ∈ given, Language.ofSource? x.source = some x.language

variable {buildDir : Path} {given : List ObjectRecord}

theorem holds_start (buildDir : Path) : Holds buildDir [] { buildDir } where
  buildDir := rfl
  owned := fun _ ↦ rfl
  separate := by simp [Separate, claims]
  languages := by simp

/-- Records that are listed behind each other have one source and one language for each object. -/
theorem Holds.eq_of_path (h : Holds buildDir given o) {x y : ObjectRecord} (hx : x ∈ given) (hy : y ∈ given)
    (hpath : x.path = y.path) : x.source = y.source ∧ x.language = y.language := by
  have hsource : x.source = y.source :=
    h.separate (x.path, x.source) (List.mem_map_of_mem hx) (y.path, y.source) (List.mem_map_of_mem hy) hpath
  have hlanguage := h.languages x hx
  rw [hsource, h.languages y hy] at hlanguage
  exact ⟨hsource, (Option.some.inj hlanguage).symm⟩

/-- There is a reason against a request whose sources are in known languages exactly if there is a clash. -/
theorem Holds.refusal_iff (h : Holds buildDir given o) (hm : m.unsupported = []) {e : CollectError} :
    Refusal buildDir given m e ↔
      ∃ e', clash? m (claims given) (claims (m.records buildDir)) = some e' ∧ e = .source e' := by
  simp only [clash?_eq_some h.separate]
  constructor
  · rintro (hbad | @⟨front, back, x, y, -, hrecords, hfirst, howner, hpath, hsource⟩)
    · exact absurd hm hbad
    · rw [claims_append] at hfirst
      have hmem : (x.path, y.source) ∈ claims given ++ claims front := by
        rw [← claims_append, ← hpath]
        exact List.mem_map_of_mem howner
      have hplaces : claims (m.records buildDir) = claims front ++ (x.path, x.source) :: claims back := by
        rw [hrecords, claims_append]
        rfl
      exact ⟨_, ⟨claims front, _, _, claims back, _, hplaces, hfirst, hmem, hsource, rfl⟩, rfl⟩
  · rintro ⟨_, ⟨front, object, source, back, owner, hplaces, hfirst, hmem, hsource, rfl⟩, rfl⟩
    obtain ⟨front, rest, hrecords, rfl, hrest⟩ := List.map_eq_append_iff.mp hplaces
    obtain ⟨x, back, rfl, hx, rfl⟩ := List.map_eq_cons_iff.mp hrest
    rw [← claims, ← claims_append] at hmem hfirst
    obtain ⟨y, hy, hpath⟩ := List.mem_map.mp hmem
    obtain ⟨rfl, rfl⟩ := Prod.mk.inj hx
    obtain ⟨hobject, rfl⟩ := Prod.mk.inj hpath
    exact .shared hm hrecords hfirst hy hobject hsource

/-- A request lists the records of its module, or it is refused for the one reason there is and changes nothing. -/
theorem Holds.request (h : Holds buildDir given o) (m : Module) :
    (∃ o', (request m).run.run o = (.ok (m.records buildDir), o') ∧ (∀ e, ¬Refusal buildDir given m e) ∧
      Holds buildDir (given ++ m.records buildDir) o') ∨
    ∃ e, (request m).run.run o = (.error e, o) ∧ ∀ e', Refusal buildDir given m e' ↔ e' = e := by
  rw [request_run]
  by_cases hm : m.unsupported = []
  case neg =>
    refine .inr ⟨_, by rw [collect_of_unsupported hm], fun e ↦ ⟨?_, ?_⟩⟩
    · rintro (_ | hsupported)
      · rfl
      · exact absurd hsupported hm
    · rintro rfl
      exact .unsupported hm
  case pos =>
    have hclaim := claim_eq m h.owned (claims (m.records buildDir))
    rw [collect_eq hm, h.buildDir]
    cases hclash : clash? m (claims given) (claims (m.records buildDir)) with
    | none =>
      rw [hclash] at hclaim
      obtain ⟨owners, hclaim, howned⟩ := hclaim
      rw [hclaim]
      refine .inl ⟨_, rfl, fun e he ↦ ?_, rfl, ?_, ?_, ?_⟩
      · obtain ⟨e', he', -⟩ := (h.refusal_iff hm).mp he
        rw [hclash] at he'
        cases he'
      · rwa [claims_append]
      · rw [claims_append]
        exact separate_of_clash hclash h.separate
      · intro x hx
        rcases List.mem_append.mp hx with hx | hx
        · exact h.languages x hx
        · exact Module.language_of_mem_records hx
    | some e =>
      rw [hclash] at hclaim
      rw [hclaim]
      refine .inr ⟨_, rfl, fun e' ↦ ?_⟩
      rw [h.refusal_iff hm, hclash]
      simp

theorem requests_nil_run (o : Ownership) : (requests []).run o = ([], o) := rfl

theorem requests_cons_run (m : Module) (ms : List Module) (o : Ownership) :
    (requests (m :: ms)).run o =
      (((request m).run.run o).1 :: ((requests ms).run ((request m).run.run o).2).1,
        ((requests ms).run ((request m).run.run o).2).2) := by
  rw [requests, List.mapM_cons]
  rfl

theorem requests_append_run (before after : List Module) (o : Ownership) :
    (requests (before ++ after)).run o =
      (((requests before).run o).1 ++ ((requests after).run ((requests before).run o).2).1,
        ((requests after).run ((requests before).run o).2).2) := by
  rw [requests, List.mapM_append]
  rfl

/-- What requests list is owned after them. -/
theorem Holds.requests (h : Holds buildDir given o) (ms : List Module) :
    Holds buildDir (given ++ listed ((requests ms).run o).1) ((requests ms).run o).2 := by
  induction ms generalizing given o with
  | nil =>
    rw [requests_nil_run, listed, List.flatMap_nil, List.append_nil]
    exact h
  | cons m ms ih =>
    rw [requests_cons_run]
    rcases h.request m with ⟨o', hrun, -, ho'⟩ | ⟨e, hrun, -⟩
    · rw [hrun]
      have := ih ho'
      rwa [List.append_assoc] at this
    · rw [hrun]
      exact ih h

/-- Requests that are refused might as well not have been made. -/
theorem requests_granted_run (ms : List Module) (o : Ownership) :
    (requests (granted ms ((requests ms).run o).1)).run o =
      (((requests ms).run o).1.filter (·.isOk), ((requests ms).run o).2) := by
  induction ms generalizing o with
  | nil => rfl
  | cons m ms ih =>
    rw [requests_cons_run]
    cases hrun : (request m).run.run o with
    | mk answer o' =>
      cases answer with
      | ok records =>
        show (requests (m :: granted ms ((requests ms).run o').1)).run o = _
        rw [requests_cons_run, hrun, ih o']
        rfl
      | error e =>
        rw [request_eq_self hrun]
        exact ih o

theorem length_requests (ms : List Module) (o : Ownership) : ((requests ms).run o).1.length = ms.length := by
  induction ms generalizing o with
  | nil => rfl
  | cons m ms ih => rw [requests_cons_run, List.length_cons, List.length_cons, ih]

/-- The answers to requests, the first of which is made when no object is owned. -/
def answersTo (buildDir : Path) (ms : List Module) : List Answer := ((requests ms).run { buildDir }).1

/-- What is owned after requests, the first of which is made when no object is owned. -/
def ownedAfter (buildDir : Path) (ms : List Module) : Ownership := ((requests ms).run { buildDir }).2

/-- Requests for modules list what fits together, and are refused only for what does not. -/
structure Sound (buildDir : Path) (ms : List Module) : Prop where
  /-- Records of one object have one source in one language. -/
  separate : ∀ x ∈ listed (answersTo buildDir ms), ∀ y ∈ listed (answersTo buildDir ms), x.path = y.path →
    x.source = y.source ∧ x.language = y.language
  /-- A request is refused for the reason that there is against what is listed before it, and changes nothing then. -/
  refused : ∀ before m rest, ms = before ++ m :: rest →
    ∃ answer later,
      answersTo buildDir ms = answersTo buildDir before ++ answer :: later ∧ later.length = rest.length ∧
      ∀ e, (answer = .error e ↔ Refusal buildDir (listed (answersTo buildDir before)) m e) ∧
        (answer = .error e → ownedAfter buildDir (before ++ [m]) = ownedAfter buildDir before)
  /-- Without those that are refused the other requests have the same answers. -/
  spared : ∀ before rest, ms = before ++ rest →
    ∃ later, answersTo buildDir ms = answersTo buildDir before ++ later ∧ later.length = rest.length ∧
      answersTo buildDir (granted before (answersTo buildDir before) ++ rest) =
        (answersTo buildDir before).filter (·.isOk) ++ later ∧
      ownedAfter buildDir (granted before (answersTo buildDir before) ++ rest) = ownedAfter buildDir ms

end Ownership

end ModuleBuild
