import Mathlib.Data.List.Infix
import ModuleBuild.Proofs.Build.Creating
import ModuleBuild.Proofs.Build.Rehearsal
import ModuleBuild.Proofs.Build.Territory

/-!
# Builds that can be foreseen

What a build is about to meet can be told from the tree in which it starts if all products can be made there and
whatever the build looks for can be looked up (`Graph.Foreseeable`). These conditions can be computed, and rehearsed
tools make what they are asked for if their script is without faults (`Serves.delivers_toolchain`).
-/

namespace ModuleBuild

namespace Graph

open FileTree

/-- All products of a graph can be made in a tree, and whatever a build looks for can be looked up: no product bars the
way to a prerequisite, and none of these is a file beside an object. -/
structure Foreseeable (g : Graph) (t : FileTree) (project : Path) (ps : List Path) : Prop
    extends Creatable t project ps where
  texts : g.ListsTexts t project
  inputs : ∀ x ∈ g.objects.values, ∀ q ∈ g.inputsOf x, ∃ m?, modified? t project q = .ok m?
  prerequisites : ∀ q ∈ g.prerequisites, t.Opens (project / q)
  unbarred : ∀ q ∈ g.prerequisites, ∀ r ∈ ps, t.place (project / r) ∉ above (t.place (project / q))
  notBeside : ∀ q ∈ g.prerequisites, t.place (project / q) ∉ g.beside t project

end Graph

variable {g : Graph} {project : Path} {t u : FileTree} {ps : List Path}

namespace FileTree

theorem isClear_iff {l : Location} : t.IsClear l ↔ ∀ l' ∈ l.tails, ∀ e ∈ t.entry? l', ¬e.isFile := by
  constructor
  · intro h l' hl' e he
    cases e with
    | file bytes m => exact absurd he (h l' ((List.mem_tails ..).mp hl') bytes m)
    | directory m => simp [Entry.isFile]
  · intro h l' hl' bytes m he
    exact h l' ((List.mem_tails ..).mpr hl') _ he rfl

instance (t : FileTree) (l : Location) : Decidable (t.IsClear l) := decidable_of_iff _ isClear_iff.symm

instance (t : FileTree) (p : Path) : Decidable (t.Opens p) :=
  decidable_of_iff (_ ∧ _ ∧ _) ⟨fun ⟨hs, hn, hc⟩ ↦ ⟨hs, hn, hc⟩, fun ⟨hs, hn, hc⟩ ↦ ⟨hs, hn, hc⟩⟩

end FileTree

/-- An entry is a text, if it is a file. -/
def Entry.isReadable : Entry → Bool
  | .file bytes _ => (Text.Utf8.readText bytes).toOption.isSome
  | .directory _ => true

theorem ObjectRecord.listsText_iff {x : ObjectRecord} : x.ListsText t project ↔
    ∀ q ∈ x.listing.toOption, ∀ e ∈ t.entry? (t.place (project / q)), e.isReadable := by
  constructor
  · intro h q hq e he
    cases e with
    | file bytes m =>
      obtain ⟨text, htext⟩ := h q (toOption_eq_some.mp hq) bytes m he
      simp [Entry.isReadable, htext, Except.toOption]
    | directory m => rfl
  · intro h q hq bytes m he
    have hreadable := h q (toOption_eq_some.mpr hq) _ he
    obtain ⟨text, htext⟩ := Option.isSome_iff_exists.mp hreadable
    exact ⟨text, toOption_eq_some.mp htext⟩

namespace Graph

open FileTree

theorem creatable_iff : Creatable t project ps ↔ t.WellFormed ∧ (∀ q ∈ ps, t.Opens (project / q)) ∧
    (∀ q ∈ ps, ¬t.isDirectoryAt (t.place (project / q))) ∧
    ∀ q ∈ ps, ∀ q' ∈ ps, ¬t.place (project / q) <:+ (t.place (project / q')).tail := by
  simp only [isDirectoryAt_eq_true, not_exists]
  exact ⟨fun ⟨hw, ho, hf, ha⟩ ↦ ⟨hw, ho, hf, ha⟩, fun ⟨hw, ho, hf, ha⟩ ↦ ⟨hw, ho, hf, ha⟩⟩

instance (t : FileTree) (project : Path) (ps : List Path) : Decidable (Creatable t project ps) :=
  decidable_of_iff _ creatable_iff.symm

instance (x : ObjectRecord) (t : FileTree) (project : Path) : Decidable (x.ListsText t project) :=
  decidable_of_iff _ ObjectRecord.listsText_iff.symm

instance (g : Graph) (t : FileTree) (project : Path) : Decidable (g.ListsTexts t project) :=
  inferInstanceAs (Decidable (∀ x ∈ g.objects.values, x.ListsText t project))

theorem foreseeable_iff : g.Foreseeable t project ps ↔ Creatable t project ps ∧ g.ListsTexts t project ∧
    (∀ x ∈ g.objects.values, ∀ q ∈ g.inputsOf x, (modified? t project q).toOption.isSome) ∧
    (∀ q ∈ g.prerequisites, t.Opens (project / q)) ∧
    (∀ q ∈ g.prerequisites, ∀ r ∈ ps, ¬t.place (project / r) <:+ (t.place (project / q)).tail) ∧
    ∀ q ∈ g.prerequisites, ∀ x ∈ g.objects.values, t.place (project / q) ∉ x.byproducts t project := by
  simp only [Option.isSome_iff_exists, toOption_eq_some]
  exact ⟨fun ⟨hc, ht, hi, hp, hu, hb⟩ ↦ ⟨hc, ht, hi, hp, hu, fun q hq x hx hl ↦ hb q hq ⟨x, hx, hl⟩⟩,
    fun ⟨hc, ht, hi, hp, hu, hb⟩ ↦ ⟨hc, ht, hi, hp, hu, fun q hq ⟨x, hx, hl⟩ ↦ hb q hq x hx hl⟩⟩

instance (g : Graph) (t : FileTree) (project : Path) (ps : List Path) : Decidable (g.Foreseeable t project ps) :=
  decidable_of_iff _ foreseeable_iff.symm

end Graph

namespace ToolScript

variable {s : ToolScript}

/-- What is new when files have been written are texts. -/
theorem text_of_writeAll {files : List (Path × String)} (h : s.writeAll t files = (u, .ok ())) {l : Location}
    {bytes : ByteArray} {m : Timestamp} (hfile : u.entry? l = some (.file bytes m)) :
    t.entry? l = some (.file bytes m) ∨ ∃ text : String, bytes = text.toUTF8 := by
  induction files generalizing t with
  | nil =>
    obtain rfl := congrArg Prod.fst h
    exact .inl hfile
  | cons file files ih =>
    rw [writeAll] at h
    split at h
    · simp at h
    · next hwrite =>
      rcases ih h with hkept | htext
      · obtain ⟨l', -, -, rfl⟩ := FileTree.write_eq_ok.mp hwrite
        rw [FileTree.entry?_put] at hkept
        split at hkept
        · exact .inr ⟨_, (Entry.file.inj (Option.some.inj hkept)).1.symm⟩
        · exact .inl hkept
      · exact .inr htext

/-- A command does not fail by a script without faults if its products can be written. -/
theorem isSuccess_of_admits (hs : s.missing = [] ∧ s.interrupt = [] ∧ s.fail = []) {command : List String}
    (h : t.Admits ((s.products command).map Prod.fst)) : (s.toolchain t project command).2.IsSuccess := by
  obtain ⟨t', hwrite⟩ := exists_writeAll (s := s) h
  obtain ⟨hmissing, hinterrupt, hfail⟩ := hs
  have hnone : command.any ([] : List String).contains = false := by simp
  unfold toolchain
  simp only [hmissing, hinterrupt, hfail, hnone, hwrite, List.contains_nil, Bool.false_eq_true, if_false]
  exact ⟨_, _, rfl⟩

/-- Rehearsed tools make all that they are asked for if their script has no faults, and each command names a program. -/
theorem Serves.delivers_toolchain (h : s.Serves g) (hs : s.missing = [] ∧ s.interrupt = [] ∧ s.fail = [])
    (hcompile : ∀ a ∈ g.compileActions.values, a.command.words?.isSome)
    (hrealize : ∀ a ∈ g.targetActions.values, a.command.words?.isSome) : s.toolchain.Delivers g .here where
  compile := by
    intro p a ha
    obtain ⟨command, hw⟩ := Option.isSome_iff_exists.mp (hcompile a (List.mem_map_of_mem (Table.mem_of_find? ha)))
    refine ⟨command, hw, fun t listing hl hadmits ↦ isSuccess_of_admits hs fun q hq ↦ hadmits q ?_⟩
    rcases h.mayWrite ha hw q hq with rfl | ⟨l, hl', rfl⟩
    · exact List.mem_cons_self
    · obtain rfl := Except.ok.inj (hl.symm.trans hl')
      simp
  compiled := by
    intro p a command t t' r ha hw htool hr
    obtain ⟨qs, hwritten, hqs⟩ := h.obeys_toolchain.exists_written ha hw htool hr
    exact ⟨qs, hwritten.fills, hqs⟩
  listing := by
    intro p a command t t' r listing bytes m ha hw htool hr hl hfile
    have hsuccess : (s.toolchain t .here command).2.IsSuccess := htool ▸ hr
    obtain ⟨t₁, hwrite, htree, -⟩ := isSuccess_toolchain (u := t) hsuccess
    rw [htool] at htree
    obtain rfl : t' = t₁ := htree
    refine (text_of_writeAll hwrite hfile).imp_right ?_
    rintro ⟨text, rfl⟩
    exact ⟨_, Listing.readText_toUTF8 text⟩
  realize := by
    intro p a ha
    obtain ⟨command, hw⟩ := Option.isSome_iff_exists.mp (hrealize a (List.mem_map_of_mem (Table.mem_of_find? ha)))
    refine ⟨command, hw, fun t hadmits ↦ isSuccess_of_admits hs ?_⟩
    rw [h.realize _ (Table.mem_of_find? ha) command hw]
    simpa [Path.here_join] using hadmits
  realized := fun p a command t t' r ha hw htool hr ↦
    (h.obeys_toolchain.realize p a command t t' r ha hw htool hr).fills

end ToolScript

end ModuleBuild
