import ModuleBuild.Module.Walk
import ModuleBuild.Proofs.Path.Normal
import Mathlib.Data.List.Nodup
import Mathlib.Data.List.Perm.Subperm
import Mathlib.Data.List.ProdSigma

/-!
# How deep modules nest

A path in normal form that leads to a file is told by its anchor, by the number of double dots in front
and by the location of the file (`eq_of_key_eq`). A path that can be looked up has fewer segments than
the greatest length of a path, so that a file tree bounds the number of different descriptors in normal
form (`length_le_of_descriptors`), and with it the depth to which modules nest.
-/

namespace ModuleBuild

namespace Path

/-- A path has no more segments than its text has bytes. -/
theorem length_segments_le (p : Path) : p.segments.length ≤ (toString p).utf8ByteSize := by
  have hpos (s : Segment) : 0 < s.text.utf8ByteSize := by
    have : s.text.utf8ByteSize ≠ 0 := by simpa using s.isValid.1
    omega
  have hmany : ∀ ss : List Segment,
      ss.length ≤ ("/".intercalate (ss.map Segment.text)).utf8ByteSize := by
    intro ss
    induction ss with
    | nil => simp
    | cons s ss ih =>
      cases ss with
      | nil => simpa using Nat.succ_le_of_lt (hpos s)
      | cons s' ss =>
        have hs := hpos s
        simp only [List.map_cons, List.length_cons, String.intercalate_cons_cons,
          String.utf8ByteSize_append] at ih ⊢
        omega
  change _ ≤ p.toString.utf8ByteSize
  unfold Path.toString
  split
  · next h => simp [h.2]
  · have := hmany p.segments
    simp only [String.utf8ByteSize_append]
    omega

/-- A path that follows another has no more double dots in front than the text of both has bytes. -/
theorem climbs_le_utf8ByteSize_join (p q : Path) : q.climbs ≤ (toString (p / q)).utf8ByteSize := by
  have hclimbs : q.climbs ≤ q.segments.length := (List.takeWhile_prefix _).length_le
  have hjoin : q.segments.length ≤ (p / q).segments.length := by
    cases h : q.isAbsolute
    · simp [join_of_not_isAbsolute h]
    · simp [join_of_isAbsolute h]
  have htext := (p / q).length_segments_le
  omega

end Path

namespace Module

/-- A descriptor that a reference can lead to: its path is in normal form, and a file is there. -/
structure IsDescriptor (t : FileTree) (project p : Path) : Prop where
  isNormal : p.IsNormal
  isFile : ∃ bytes m, t.stat (project / p) = .ok (.file bytes m)

/-- What tells a descriptor: its anchor, the double dots in front, and where it stands. -/
def key (t : FileTree) (project p : Path) : Anchor × Nat × Location :=
  (p.anchor, p.climbs, t.place (project / p))

/-- Where paths with an anchor start in a project. -/
private def base (t : FileTree) (project : Path) (a : Anchor) : Location :=
  if a = .here then t.place project else []

private theorem place_eq {t : FileTree} {project p : Path} (h : p.IsNormal) :
    t.place (project / p) = p.names.reverse ++ (base t project p.anchor).drop p.climbs := by
  have hfollow (l : Location) :
      p.segments.foldl Location.step l = p.names.reverse ++ l.drop p.climbs := by
    rw [p.segments_eq, List.foldl_append, Location.foldl_step_replicate_up]
    exact Location.foldl_step_of_ne_up h
  rw [FileTree.place, Location.follow_join]
  by_cases ha : p.anchor = .here
  · have habs : p.isAbsolute = false := by simp [Path.isAbsolute, ha]
    rw [habs, if_neg (by simp), base, if_pos ha, ← hfollow]
    simp [Location.follow, habs, FileTree.place]
  · have habs : p.isAbsolute = true := by simpa [Path.isAbsolute] using ha
    rw [habs, if_pos rfl, base, if_neg ha, ← hfollow]
    simp [Location.follow, habs]

/-- Descriptors that are told by the same key are the same. -/
theorem eq_of_key_eq {t : FileTree} {project p q : Path} (hp : p.IsNormal) (hq : q.IsNormal)
    (h : key t project p = key t project q) : p = q := by
  simp only [key, Prod.mk.injEq] at h
  obtain ⟨ha, hc, hl⟩ := h
  rw [place_eq hp, place_eq hq, ha, hc, List.append_cancel_right_eq, List.reverse_inj] at hl
  have hs : p.segments = q.segments := by rw [p.segments_eq, q.segments_eq, hc, hl]
  cases p
  cases q
  simp_all

/-- There are no more different descriptors than `maxDepth` allows for. -/
theorem length_le_of_descriptors {t : FileTree} {project : Path} {ps : List Path} (hn : ps.Nodup)
    (hd : ∀ p ∈ ps, IsDescriptor t project p) :
    ps.length ≤ 3 * FileTree.maxPath * t.nodes.entries.length := by
  have hkeys : (ps.map (key t project)).Nodup :=
    (List.nodup_map_iff_inj_on hn).mpr fun p hp q hq h ↦
      eq_of_key_eq (hd p hp).isNormal (hd q hq).isNormal h
  have hsub : ps.map (key t project) ⊆
      [Anchor.here, .root, .doubleRoot] ×ˢ List.range FileTree.maxPath ×ˢ t.nodes.keys := by
    intro k hk
    obtain ⟨p, hp, rfl⟩ := List.mem_map.mp hk
    obtain ⟨bytes, m, hs⟩ := (hd p hp).isFile
    obtain ⟨hlocate, hentry⟩ := FileTree.stat_eq_ok.mp hs
    have hsize := (FileTree.locate_eq_ok.mp hlocate).2.1
    have hlen := Nat.lt_of_le_of_lt (Path.climbs_le_utf8ByteSize_join project p) hsize
    have hanchor : p.anchor ∈ [Anchor.here, .root, .doubleRoot] := by
      cases p.anchor <;> simp
    have hnode : t.place (project / p) ∈ t.nodes.keys := FileTree.mem_keys_of_file hentry
    simp only [key, List.mem_product, hanchor, List.mem_range, hlen, hnode, and_self]
  calc ps.length = (ps.map (key t project)).length := (List.length_map _).symm
    _ ≤ _ := (List.subperm_of_subset hkeys hsub).length_le
    _ = _ := by
      simp only [List.length_product, List.length_cons, List.length_nil, List.length_range, Table.keys,
        List.length_map, Nat.mul_assoc]

end Module

end ModuleBuild
