import ModuleBuild.Proofs.Build.Effects
import ModuleBuild.Proofs.FileTree.Making

/-!
# Compiles are local

With tools whose compiles go by their commands alone, a compile hangs only on what stands where it writes, and on
no file standing above the object. It touches only what it writes, and leaves directories above the object
(`touches_compiles`); and in every other tree that holds the same where the compile writes it does the same
(`compiles_alike`).
-/

namespace ModuleBuild

namespace Graph

open FileTree

variable {g : Graph} {o : BuildOptions} {t t' u : FileTree} {p : Path} {a : CompileAction}
  {command : List String}

/-- A compile that goes by its command touches what it may write. -/
theorem touches_of_gains {project : Path} {r : ObjectRecord} {files : List (Path × ByteArray)}
    (h : t.Gains t' files) (hfiles : ∀ f ∈ files, r.MayWrite project f.1) :
    t.Touches t' (writings t project r) ∅ := by
  refine h.alters.touches.mono ?_ (Set.Subset.refl _)
  rintro l ⟨q, hq, rfl⟩
  obtain ⟨f, hf, rfl⟩ := List.mem_map.mp hq
  exact mem_writings (hfiles f hf) t

section

variable (hg : g.Coherent) (htools : o.tools.Repeats g o.project)
  (ha : g.compileActions.find? p = some a) (hs : (o.project / p).IsStraight)

include hg htools ha hs

/-- A compile touches the object and the files beside it. No file stands above the object when it begins, and
when it ends directories do. -/
theorem touches_compiles (ht : t.WellFormed) (h : Compiles o a t t' command) :
    t.Touches t' (footprint t o.project a.object) (above (t.place (o.project / p))) ∧
      t.IsClear (t.place (o.project / p)).tail ∧
      ∀ l ∈ above (t.place (o.project / p)), ∃ m, t'.entry? l = some (.directory m) := by
  obtain ⟨t₁, hparent, t₂, r, d?, hw, htool, hr, hfinalize⟩ := h
  obtain ⟨rfl, hobject⟩ := hg.compileAction p a ha
  have hisObject := (hg.object _ a.object hobject).2.1
  obtain ⟨s, hname, -⟩ := hisObject.exists_name
  have hjoin := Path.segments_join_ne_nil (p := o.project) (Path.segments_ne_nil_of_name? hname)
  have hs' : (o.project / a.object.path).parent.IsStraight := fun s h ↦ hs s (List.dropLast_subset _ h)
  obtain ⟨hclear, hdirectories⟩ := isClear_of_ensureDirectory ht hs' hparent
  rw [place_parent t hs hjoin] at hclear hdirectories
  have hev : t.Evolves t₁ t.clock ∅ (above (t.place (o.project / a.object.path))) :=
    (evolves_ensureParent ht hs hjoin hparent).1
  obtain ⟨files, hfiles, hgains, -⟩ := htools _ a command ha hw
  have hgains := hgains t₁ t₂ r htool hr
  have htouches := touches_of_gains hgains hfiles
  have ht₂ := htouches.wellFormed (hev.wellFormed ht)
  have hev' : t₂.Evolves t' t.clock _ ∅ := Listing.evolves_beside ht₂ hfinalize
  have hwritten : t₁.Touches t' (footprint t o.project a.object) (above (t.place (o.project / a.object.path))) := by
    refine (htouches.mono ?_ (Set.empty_subset _)).trans (hev'.toTouches.mono ?_ (Set.empty_subset _))
    · rw [← footprint_eq hev.current]
      exact writings_subset ..
    · intro l hl
      have hl : l ∈ a.object.byproducts t₂ o.project := hl
      rw [byproducts_eq (htouches.current.trans hev.current)] at hl
      exact .inr hl
  refine ⟨(hev.toTouches.mono (Set.empty_subset _) (Set.Subset.refl _)).trans hwritten, hclear, ?_⟩
  intro l hl
  obtain ⟨m, hm⟩ := hdirectories l hl
  exact ⟨m, hwritten.directory l m hm⟩

/-- In trees in which the directory of an object is there, and which hold the same where the compile writes, the
object is compiled and finished alike. -/
theorem finishes_alike {m m' : Timestamp} (hcurrent : u.current = t.current)
    (hdir : t.stat (o.project / p).parent = .ok (.directory m))
    (hdir' : u.stat (o.project / p).parent = .ok (.directory m')) (h : Finishes o a t t' command)
    (hagree : ∀ l ∈ footprint t o.project a.object, t.AgreeAt u l) :
    ∃ u', Finishes o a u u' command ∧ ∀ l, t.AgreeAt u l → t'.AgreeAt u' l := by
  obtain ⟨t₁, r, d?, hw, htool, hr, hfinalize⟩ := h
  obtain ⟨rfl, hobject⟩ := hg.compileAction p a ha
  have hisObject := (hg.object _ a.object hobject).2.1
  obtain ⟨files, hfiles, hgains, hrepeats⟩ := htools _ a command ha hw
  have hgains₁ := hgains t t₁ r htool hr
  -- the files can be written in the other tree too
  have hadmits : u.Admits (files.map Prod.fst) := by
    intro q hq
    obtain ⟨f, hf, rfl⟩ := List.mem_map.mp hq
    have hbeside := hfiles f hf
    have halike : t.AlikeAt u f.1 :=
      (hagree _ (writings_subset _ _ _ (mem_writings hbeside t))).alikeAt hcurrent
        (hbeside.segments_ne_nil hisObject) (hbeside.parent_eq ▸ hdir) (hbeside.parent_eq ▸ hdir')
    obtain ⟨hlocate, hnew⟩ := hgains₁.admits f.1 (List.mem_map_of_mem hf)
    rw [FileTree.place_congr hcurrent]
    refine ⟨halike.1.trans hlocate, fun m₁ hm₁ ↦ ?_⟩
    obtain ⟨m₂, hm₂⟩ := (halike.2 _ hlocate).symm.entry?_eq_directory hm₁
    exact hnew m₂ hm₂
  have hsuccess := hrepeats t u (htool ▸ hr) hadmits
  have hgains₂ := hgains u _ _ rfl hsuccess
  have htouches₁ := touches_of_gains hgains₁ hfiles
  have htouches₂ := touches_of_gains hgains₂ hfiles
  -- and the object is then finished alike
  have halike {x : Suffix} {q : Path} (hq : a.object.sibling x = .ok q)
      (hbeside : a.object.dependencies = .ok q ∨ a.object.listing = .ok q) :
      t₁.AlikeAt (o.tools u o.project command).1 (o.project / q) := by
    obtain ⟨s', -, hqname, -⟩ := ObjectRecord.sibling_eq_ok hq
    have hparent : (o.project / q).parent = (o.project / a.object.path).parent := ObjectRecord.parent_sibling hq
    have hmem : t₁.place (o.project / q) ∈ footprint t o.project a.object := by
      rw [← footprint_eq htouches₁.current]
      exact .inr (ObjectRecord.mem_byproducts.mpr ⟨q, hbeside, rfl⟩)
    apply AgreeAt.alikeAt
    · exact hgains₁.agreeAt hgains₂ hcurrent (hagree _ hmem)
    · exact (hgains₂.current.trans hcurrent).trans hgains₁.current.symm
    · exact Path.segments_join_ne_nil (Path.segments_ne_nil_of_name? hqname)
    · exact hparent ▸ htouches₁.stat_eq_directory hdir
    · exact hparent ▸ htouches₂.stat_eq_directory hdir'
  obtain ⟨u', hfinalize', hagree'⟩ :=
    Listing.finalize_alike (fun q hq ↦ halike hq (.inr hq)) (fun q hq ↦ halike hq (.inl hq)) hfinalize
  refine ⟨u', ⟨_, _, d?, hw, rfl, hsuccess, hfinalize'⟩, fun l hl ↦ ?_⟩
  exact hagree' l (hgains₁.agreeAt hgains₂ hcurrent hl)

/-- A compile that succeeds in one tree succeeds in every other that holds the same where it writes, if no file
stands above the object there. What is then held above the object is the same, and so is what was the same
elsewhere. -/
theorem compiles_alike (ht : t.WellFormed) (hu : u.WellFormed) (hcurrent : u.current = t.current)
    (h : Compiles o a t t' command) (hclear : u.IsClear (t.place (o.project / p)).tail)
    (hagree : ∀ l ∈ footprint t o.project a.object, t.AgreeAt u l) :
    ∃ u', Compiles o a u u' command ∧
      ∀ l, l ∈ above (t.place (o.project / p)) ∨ t.AgreeAt u l → t'.AgreeAt u' l := by
  obtain ⟨t₁, hparent, hfinishes⟩ := h
  obtain ⟨rfl, hobject⟩ := hg.compileAction p a ha
  obtain ⟨s, hname, -⟩ := (hg.object _ a.object hobject).2.1.exists_name
  have hjoin := Path.segments_join_ne_nil (p := o.project) (Path.segments_ne_nil_of_name? hname)
  have hs' : (o.project / a.object.path).parent.IsStraight := fun s h ↦ hs s (List.dropLast_subset _ h)
  rw [← place_parent t hs hjoin] at hclear
  obtain ⟨u₁, hparent', hagree₁⟩ := ensureDirectory_alike ht hu hcurrent hs' hparent hclear
  rw [place_parent t hs hjoin] at hagree₁
  obtain ⟨hev, m, hdir⟩ := evolves_ensureDirectory ht t.clock hs' hparent
  obtain ⟨hev', m', hdir'⟩ := evolves_ensureDirectory hu u.clock hs' hparent'
  obtain ⟨u', hfinishes', hagree'⟩ := finishes_alike hg htools ha hs
    ((hev'.current.trans hcurrent).trans hev.current.symm) hdir hdir' hfinishes fun l hl ↦
      hagree₁ l (.inr (hagree l (footprint_eq hev.current o.project a.object ▸ hl)))
  exact ⟨u', ⟨u₁, hparent', hfinishes'⟩, fun l hl ↦ hagree' l (hagree₁ l hl)⟩

end

end Graph

end ModuleBuild
