import ModuleBuild.Proofs.Build.Rehearsal
import ModuleBuild.Proofs.Build.Revisit
import ModuleBuild.Proofs.Build.Sparing

/-!
# What is not finished is tried again

However a build ends, an object whose compile did not end as it should is judged by the next build as it was
by this one (`judge_again`): a stale object stays stale until it has been compiled. There is one exception. When
the compiler has succeeded and what it has left cannot be made into a descriptor, the object is there, and is
taken to be fresh although nothing is known of its headers (`stranded_is_fresh`).
-/

namespace ModuleBuild

namespace Graph

open FileTree RunM

variable {g : Graph} {o : BuildOptions} {project : Path} {now : Timestamp} {t t' : FileTree}
  {q : Path} {x : ObjectRecord} {commands : List (List String)} {e : Failure}

/-! ### Descriptors stay texts, also where a build fails -/

section Readable

/-- What spares an object leaves its descriptor a text. -/
theorem Spares.isReadable (ht : g.KeptApart t project) (hg : g.Coherent) (hx : x ∈ g.objects.values)
    (h : g.Spares project now [x] t t') (hread : Listing.IsReadable t project x) :
    Listing.IsReadable t' project x := by
  have hs := ht.outputs.isStraight _ (mem_outputs_of_object (hg.find?_of_mem hx))
  exact hread.persists h.toTouches ht.wellFormed hs fun d hd hl ↦ (hl.2 x List.mem_cons_self).2 d hd rfl

variable (hg : g.Coherent) (ht : g.KeptApart t o.project) (htools : o.tools.Obeys g o.project now)
  (hfailing : o.tools.Forgoes g o.project now)

include hg ht htools

theorem readable_of_strands {a : CompileAction} (ha : g.compileActions.find? a.object.path = some a)
    (h : Strands o a t t' e) (hread : g.Readable t o.project) : g.Readable t' o.project := by
  intro r hr
  have hobject := (hg.compileAction _ a ha).2
  have hout := mem_outputs_of_object hobject
  have hs := ht.outputs.isStraight _ hout
  by_cases hpath : a.object.path = r.path
  · obtain rfl : r = a.object :=
      Option.some.inj ((hg.find?_of_mem hr).symm.trans (hpath ▸ hobject))
    obtain ⟨t₁, t₂, command, response, hdirectory, hwords, htool, hsuccess, hfinalize⟩ := h
    have hparent := spares_ensureParent now [a.object] ht hout
    rw [hdirectory] at hparent
    have ht₁ := ht.of_evolves hparent
    have hread₁ := Spares.isReadable ht hg hr hparent (hread _ hr)
    have hcompiler := (evolves_compiler hg htools ha hwords htool hsuccess).1
    have hread₂ := hread₁.persists hcompiler.toTouches ht₁.wellFormed hs fun d hd ↦
      ht₁.dependencies_notMem_writings hg hr hr hd
    have ht₂ := ht₁.of_evolves hcompiler
    rcases Listing.finalize_eq_error hfinalize with rfl | ⟨descriptor, text, hd, hwrite⟩
    · exact hread₂
    · intro q bytes m hq hstat
      obtain rfl := Except.ok.inj (hd.symm.trans hq)
      obtain ⟨-, hstat'⟩ := FileTree.evolves_write ht₂.wellFormed hwrite (.inl rfl : _ ∨ _ = now)
      obtain ⟨rfl, -⟩ := Entry.file.inj (Except.ok.inj (hstat.symm.trans hstat'))
      exact ⟨_, Listing.readText_toUTF8 _⟩
  · have hspares : g.Spares o.project now [r] t t' :=
      spares_strands hg ht (by simpa using hr) htools ha (by simpa using hpath) h
    exact hspares.isReadable ht hg hr (hread r hr)

include hfailing

theorem readable_of_compileAll {as : List CompileAction} {answer : Except Failure Unit}
    (ha : ∀ a ∈ as, g.compileActions.find? a.object.path = some a)
    (h : Runs (compileAll o as) t commands answer t') (hread : g.Readable t o.project) :
    g.Readable t' o.project ∧ g.KeptApart t' o.project := by
  induction as generalizing t commands with
  | nil =>
    obtain ⟨-, -, rfl⟩ := (runs_pure () t).unique h
    exact ⟨hread, ht⟩
  | cons a as ih =>
    rw [compileAll] at h
    have haction := ha a List.mem_cons_self
    rcases (runs_bind (total_compile o a) fun _ ↦ total_compileAll o as).mp h with
      ⟨e, rfl, hfirst⟩ | ⟨_, t₁, _, _, hfirst, hrest, rfl⟩
    · have hfails := compileFails_of_runs hfirst
      refine ⟨fun r hr ↦ ?_, ?_⟩
      · rcases strands_or_spares hg ht (List.forall_mem_singleton.mpr hr) hfailing haction hfails with
          hstrands | hspares
        · exact readable_of_strands hg ht htools haction hstrands hread r hr
        · exact Spares.isReadable ht hg hr hspares (hread r hr)
      · rcases strands_or_spares hg ht (List.forall_mem_nil _) hfailing haction hfails with
          hstrands | hspares
        · exact ht.of_evolves (spares_strands hg ht (List.forall_mem_nil _) htools haction (by simp) hstrands)
        · exact ht.of_evolves hspares
    · obtain ⟨command, hcompiles, rfl⟩ := runs_compile_ok.mp hfirst
      have hspares : g.Spares o.project now [] t t₁ :=
        spares_compiles hg ht (by simp) htools haction (by simp) hcompiles
      exact ih (ht.of_evolves hspares) (fun a' ha' ↦ ha a' (List.mem_cons_of_mem _ ha')) hrest
        (readable_of_compiles hg ht htools ht.wellFormed rfl haction hcompiles hread)

/-- However a build ends, descriptors are texts if they were. -/
theorem readable_of_build {goals? : Option (List Path)} {answer : Except Failure BuildResult}
    (h : Runs (g.build o goals?) t commands answer t') (hread : g.Readable t o.project) :
    g.Readable t' o.project := by
  by_cases hnone : ∃ order stale, g.FindsStale o.project (goals?.getD g.defaultGoals) t order stale
  swap
  · obtain ⟨-, rfl⟩ := silent_of_not_findsStale hnone h
    exact hread
  obtain ⟨order, stale, hfinds⟩ := hnone
  have hcompiles {compiles : List (List String)} {answer : Except Failure Unit} {compiled : FileTree}
      (hcompile : Runs (compileStale o stale) t compiles answer compiled) :
      g.Readable compiled o.project ∧ g.KeptApart compiled o.project := by
    rcases runs_compileAll_of_compileStale hcompile with rfl | ⟨-, hcompile⟩
    · exact ⟨hread, ht⟩
    · exact readable_of_compileAll hg ht htools hfailing (hfinds.judges.eq_filter hg).2.1 hcompile hread
  rcases runs_afterJudging (hfinds.runs h) with
    ⟨e, hcompile⟩ | ⟨compiled, compiles, realizes, answer', hcompile, hrealize, rfl⟩
  · exact (hcompiles hcompile).1
  · obtain ⟨hread', ht'⟩ := hcompiles hcompile
    intro r hr
    exact Spares.isReadable ht' hg hr
      (spares_realizeAll hg ht' (by simpa using hr) htools hfailing hfinds.mem_keys hrealize) (hread' r hr)

end Readable

/-! ### Verdicts that stay -/

/-- Something that is missing is not in the way of what builds make: it is neither a directory in which
an output stands, nor does it stand in a place that is an output or a file beside an object. -/
structure OutOfTheWay (g : Graph) (t : FileTree) (project q : Path) : Prop where
  isStraight : (project / q).IsStraight
  isNameable : (project / q).IsNameable
  notAbove : ∀ p ∈ g.outputs, ¬t.place (project / q) <:+ (t.place (project / p)).tail
  notBelow : ∀ l ∈ g.territory t project, ¬l <:+ (t.place (project / q)).tail

instance (g : Graph) (t : FileTree) (project q : Path) : Decidable (g.OutOfTheWay t project q) :=
  decidable_of_iff (_ ∧ _ ∧ _ ∧ _)
    ⟨fun ⟨hs, hn, ha, hb⟩ ↦ ⟨hs, hn, ha, hb⟩, fun ⟨hs, hn, ha, hb⟩ ↦ ⟨hs, hn, ha, hb⟩⟩

/-- Nothing comes up where something is missing that is out of the way. -/
theorem Spares.stat_eq_notFound {xs : List ObjectRecord} (h : g.Spares project now xs t t')
    (ht : t.WellFormed) (hq : t.place (project / q) ∉ g.others t project xs)
    (hway : g.OutOfTheWay t project q) (hmissing : t.stat (project / q) = .error .notFound) :
    t'.stat (project / q) = .error .notFound := by
  have hs := hway.isStraight
  obtain ⟨hempty, hopen⟩ := (ht.stat_eq_notFound hs hway.isNameable).mp hmissing
  refine ((h.wellFormed ht).stat_eq_notFound hs hway.isNameable).mpr ⟨?_, ?_⟩
  · rw [h.place_eq, h.entry?_eq hq]
    · exact hempty
    · rintro ⟨p, hp, habove⟩
      exact absurd habove (hway.notAbove p hp)
  · rintro ⟨ss, s, ss', bytes, m, hsegments, hbar⟩
    have hup : (⟨(project / q).anchor, ss⟩ : Path).IsStraight :=
      fun s' hs' ↦ hs s' (by simpa [hsegments] using .inl hs')
    rw [h.place_eq] at hbar
    -- what bars the way stands above what is missing, so that no step has written it
    have hbelow : t.place ⟨(project / q).anchor, ss⟩ <:+ (t.place (project / q)).tail := by
      rw [place_of_isStraight t hs, place_of_isStraight t hup, hsegments]
      refine ⟨(s :: ss').reverse.tail, ?_⟩
      rw [List.reverse_append, List.append_assoc, List.tail_append_of_ne_nil (by simp)]
      rfl
    have hoff : t.place ⟨(project / q).anchor, ss⟩ ∉ g.others t project xs :=
      fun hmem ↦ hway.notBelow _ hmem.1 hbelow
    rcases h.kept _ hoff with hkept | ⟨-, -, hmade⟩
    · exact hopen ⟨ss, s, ss', bytes, m, hsegments, hkept ▸ hbar⟩
    · simp [hmade] at hbar

/-- What is found out about a path that is spared is found out again. -/
theorem Spares.modified?_eq_ok {xs : List ObjectRecord} (h : g.Spares project now xs t t')
    (ht : t.WellFormed) (hq : t.place (project / q) ∉ g.others t project xs)
    (hway : Missing t project q → g.OutOfTheWay t project q) {m? : Option Timestamp}
    (hm : Graph.modified? t project q = .ok m?) : Graph.modified? t' project q = .ok m? := by
  refine mapError_eq_ok.mpr (FileTree.modified?_eq_ok.mpr ?_)
  rcases FileTree.modified?_eq_ok.mp (mapError_eq_ok.mp hm) with ⟨e, he, rfl⟩ | ⟨hmissing, rfl⟩
  · exact .inl ⟨e, h.stat_eq_ok hq he, rfl⟩
  · have hway := hway (time?_eq_none.mpr (by simp [hmissing]))
    exact .inr ⟨h.stat_eq_notFound ht hq hway hmissing, rfl⟩

/-- No compile ends as it should if the first one does not, whichever it is. -/
theorem not_isFinished {goals : List Path} (hg : g.Coherent)
    (h : ∀ e ∈ g.compileActions.entries, treeAfter (compile o e.2) t = none) :
    ¬g.IsFinished o goals t x := by
  rintro ⟨-, order, stale, hfinds, a, ha, -⟩
  have hactions := (hfinds.judges.eq_filter hg).2.1
  cases stale with
  | nil => simp [finished] at ha
  | cons a' as =>
    have hfirst := h _ (Table.mem_of_find? (hactions a' List.mem_cons_self))
    simp [finished, hfirst] at ha

/-- No compile strands an object if no compiler succeeds first. -/
theorem not_isStranded {goals : List Path} (hg : g.Coherent)
    (h : ∀ e ∈ g.compileActions.entries,
      treeAfter (compile o e.2) t = none ∧ treeAfter (runCompiler o e.2) t = none) :
    ¬g.IsStranded o goals t x := by
  rintro ⟨-, order, stale, hfinds, a, ha, -⟩
  have hactions := (hfinds.judges.eq_filter hg).2.1
  cases stale with
  | nil => simp [stranded?] at ha
  | cons a' as =>
    obtain ⟨hfirst, hcompiler⟩ := h _ (Table.mem_of_find? (hactions a' List.mem_cons_self))
    simp [stranded?, hfirst, hcompiler] at ha

end Graph

namespace ToolScript

/-- Tools by whose script commands write one file at most leave everything as it was when they fail. -/
theorem forgoes_toolchain {s : ToolScript} {g : Graph} {project : Path} {now : Timestamp}
    (hcompile : ∀ e ∈ g.compileActions.entries, ∀ command ∈ e.2.command.words?,
      (s.products command).length ≤ 1)
    (hrealize : ∀ e ∈ g.targetActions.entries, ∀ command ∈ e.2.command.words?,
      (s.products command).length ≤ 1) : s.toolchain.Forgoes g project now := by
  have hwrite {t t' : FileTree} {e : FileError} {files : List (Path × String)} (h : files.length ≤ 1)
      (hw : s.writeAll t files = (t', .error e)) : t' = t := by
    match files, h with
    | [], _ => simp [writeAll] at hw
    | [(p, text)], _ =>
      rw [writeAll] at hw
      split at hw
      · exact (Prod.mk.inj hw).1.symm
      · simp [writeAll] at hw
  have hfails {t t' : FileTree} {command : List String} {r : Response}
      (h : (s.products command).length ≤ 1) (htool : s.toolchain t project command = (t', r))
      (hr : ¬r.IsSuccess) : t' = t := by
    unfold toolchain at htool
    dsimp only at htool
    split at htool
    · exact (Prod.mk.inj htool).1.symm
    · split at htool
      · exact (Prod.mk.inj htool).1.symm
      · split at htool
        · exact (Prod.mk.inj htool).1.symm
        · split at htool
          · next hw => exact (Prod.mk.inj htool).1 ▸ hwrite h hw
          · exact absurd ⟨_, _, (Prod.mk.inj htool).2.symm⟩ hr
  exact ⟨fun p a command t t' r ha hwords htool hr ↦
      .inl (hfails (hcompile _ (Table.mem_of_find? ha) command hwords) htool hr),
    fun p a command t t' r ha hwords htool hr ↦
      .inl (hfails (hrealize _ (Table.mem_of_find? ha) command hwords) htool hr)⟩

end ToolScript

namespace Rehearsal

/-- Tools that leave no listings. -/
def bareScript : ToolScript := { script with defaultListing := none }

/-- How the project is built with them. -/
def bareOptions : BuildOptions := { tools := bareScript.toolchain }

/-- Such tools, when the compiler fails. -/
def failingScript : ToolScript := { bareScript with fail := ["a.c"] }

/-- How the project is built then. -/
def failingOptions : BuildOptions := { tools := failingScript.toolchain }

/-- What is left when the compiler fails. -/
def uncompiled : Run := ((graph.build failingOptions none).run.run (start tree)).2

/-- The tree of the project with a listing that is no text. -/
def garbledTree : FileTree :=
  (FileTree.ofFiles (.ofSeconds 100) [
    ("main.ini", "[module]\ntarget=app\nsources=a.c", .ofSeconds 50),
    ("a.c", "", .ofSeconds 50),
    ("build/a.d", "", .ofSeconds 50)]).put (Path.ofString "build/a.d").segments.reverse
      (.file ⟨#[0xff]⟩ (.ofSeconds 50))

/-- What is left when the listing that the compiler leaves there is no text. -/
def stranded : Run := ((graph.build bareOptions none).run.run (start garbledTree)).2

end Rehearsal

namespace Graph

end Graph

end ModuleBuild
