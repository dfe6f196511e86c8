import ModuleBuild.Proofs.FileTree.Contents
import ModuleBuild.Proofs.Path.Text

/-!
# Files in place of others

Where one name in a directory can be looked up, so can another that is not longer (`locate_concat`), and a
file can be written there and the first one removed (`write_remove`).
-/

namespace ModuleBuild

namespace FileTree

variable {t : FileTree} {p q : Path} {l l' : Location}

/-- Where one name in a directory can be looked up, so can another that is not longer. -/
theorem locate_concat {a : Anchor} {ss : List Segment} {s s' : Segment} (hs : s ≠ .up) (hs' : s' ≠ .up)
    (hsize : s'.text.utf8ByteSize ≤ s.text.utf8ByteSize) (hnull : '\x00' ∈ s'.text.toList → '\x00' ∈ s.text.toList)
    (h : t.locate ⟨a, ss ++ [s]⟩ = .ok l) :
    ∃ above, l = s :: above ∧ t.locate ⟨a, ss ++ [s']⟩ = .ok (s' :: above) := by
  obtain ⟨front, -, hfront⟩ := Path.exists_toString_concat a ss
  obtain ⟨hnull', hpath, hall⟩ := locate_eq_ok.mp h
  rw [enterAll_append] at hall
  obtain ⟨above, habove, hlast⟩ := bind_eq_ok.mp hall
  obtain ⟨l', henter, hnil⟩ := bind_eq_ok.mp hlast
  obtain ⟨hdir, hname, rfl⟩ := enter_eq_ok.mp henter
  obtain rfl := Except.ok.inj hnil
  refine ⟨above, if_neg hs, locate_eq_ok.mpr ⟨?_, ?_, ?_⟩⟩
  · rw [hfront, String.toList_append, List.mem_append, not_or] at hnull' ⊢
    exact ⟨hnull'.1, fun hmem ↦ hnull'.2 (hnull hmem)⟩
  · rw [hfront, String.utf8ByteSize_append] at hpath ⊢
    omega
  · have henter' : t.enter above s' = .ok (s' :: above) := by
      refine enter_eq_ok.mpr ⟨hdir, .inr ?_, (if_neg hs').symm⟩
      have := hname.resolve_left hs
      omega
    rw [enterAll_append]
    refine bind_eq_ok.mpr ⟨above, habove, ?_⟩
    rw [enterAll, henter']
    rfl

/-- Putting something where no directory is leaves paths leading where they led. -/
theorem locate_put {e : Entry} (hfree : ∀ m, t.entry? l ≠ some (.directory m)) (h : t.locate p = .ok l') :
    (t.put l e).locate p = .ok l' := by
  refine locate_of_directory (t := t) rfl (fun l₁ m hl₁ ↦ ⟨m, ?_⟩) h
  rw [entry?_put, if_neg]
  · exact hl₁
  · rintro ⟨-, rfl⟩
    exact hfree m hl₁

/-- So does taking a file away. -/
theorem locate_erase (hfree : ∀ m, t.entry? l ≠ some (.directory m)) (h : t.locate p = .ok l') :
    (t.erase l).locate p = .ok l' := by
  refine locate_of_directory (t := t) rfl (fun l₁ m hl₁ ↦ ⟨m, ?_⟩) h
  rw [entry?_erase, if_neg]
  · exact hl₁
  · rintro ⟨-, rfl⟩
    exact hfree m hl₁

/-- Trees that are alike at a path stay so when something is put elsewhere. -/
theorem AlikeAt.put {u : FileTree} (h : t.AlikeAt u p) (hp : t.locate p = .ok l') {e e' : Entry}
    (he : e'.bytes? = e.bytes?) (hfree : ∀ m, t.entry? l ≠ some (.directory m))
    (hfree' : ∀ m, u.entry? l ≠ some (.directory m)) : (t.put l e).AlikeAt (u.put l e') p := by
  have ht := locate_put (e := e) hfree hp
  have hu := locate_put (e := e') hfree' (h.1.trans hp)
  refine ⟨hu.trans ht.symm, fun l₁ hl₁ ↦ ?_⟩
  obtain rfl := Except.ok.inj (ht.symm.trans hl₁)
  exact (h.2 _ hp).put he

/-- A file can be written at one place and another removed from a second one. -/
theorem write_remove (hp : t.locate p = .ok l) (hq : t.locate q = .ok l') (hne : l' ≠ l)
    {bytes : ByteArray} {m : Timestamp} (hfile : t.entry? l = some (.file bytes m))
    (hfree : ∀ m, t.entry? l' ≠ some (.directory m)) (bytes' : ByteArray) (m' : Timestamp) :
    ∃ t₁ t', t.write q bytes' m' = .ok t₁ ∧ t₁.remove p = .ok t' ∧
      t'.stat p = .error .notFound ∧ t'.stat q = .ok (.file bytes' m') := by
  have hroot : l ≠ [] := by
    rintro rfl
    simp at hfile
  have hroot' : l' ≠ [] := by
    rintro rfl
    exact hfree t.clock (entry?_nil t)
  have hwrite : t.write q bytes' m' = .ok (t.put l' (.file bytes' m')) :=
    write_eq_ok.mpr ⟨l', hq, hfree, rfl⟩
  have hfile' : FileTree.entry? (t.put l' (.file bytes' m')) l = some (.file bytes m) := by
    rw [entry?_put, if_neg fun h ↦ hne h.2.symm]
    exact hfile
  have hremove : (t.put l' (.file bytes' m')).remove p = .ok ((t.put l' (.file bytes' m')).erase l) :=
    remove_eq_ok.mpr ⟨l, bytes, m, locate_put hfree hp, hfile', rfl⟩
  have hlocate {r : Path} {l₁ : Location} (h : t.locate r = .ok l₁) :
      ((t.put l' (.file bytes' m')).erase l).locate r = .ok l₁ :=
    locate_erase (by simp [hfile']) (locate_put hfree h)
  refine ⟨_, _, hwrite, hremove, ?_, ?_⟩
  · rw [stat, hlocate hp, ok_bind, entry?_erase, if_pos ⟨hroot, rfl⟩]
  · rw [stat, hlocate hq, ok_bind, entry?_erase, if_neg fun h ↦ hne h.2, entry?_put, if_pos ⟨hroot', rfl⟩]

end FileTree

end ModuleBuild
