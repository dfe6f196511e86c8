import ModuleBuild.Listing.Descriptor
import ModuleBuild.Proofs.FileTree.Evolution
import ModuleBuild.Proofs.FileTree.Replacement
import ModuleBuild.Proofs.Path.Siblings

/-!
# Dependency descriptors and the file tree

Finishing an object touches only the files beside it (`evolves_finalize`), and what is left there can be
read. Which headers an object has hangs on the file at one path alone (`headersOf_eq_some`).
-/

namespace ModuleBuild.Listing

variable {t t' : FileTree} {project : Path} {o : ObjectRecord} {now : Timestamp}

/-- A text that is kept can be read. -/
theorem readText_toUTF8 (text : String) :
    Text.Utf8.readText text.toUTF8 = .ok (.ofList (Text.normalizeNewlines text.toList)) := by
  simp only [Text.Utf8.readText, Text.Utf8.decode_toUTF8, Except.map]

/-- Finishing an object without a listing changes nothing; else the descriptor takes the place of the
listing. -/
theorem finalize_eq_ok {d? : Option Path} :
    finalize t project o = (t', .ok d?) ↔ ∃ listing, o.listing = .ok listing ∧
      (t.pathExists (project / listing) = .ok false ∧ t' = t ∧ d? = none ∨
        t.pathExists (project / listing) = .ok true ∧ ∃ descriptor text t₁,
          readText t (project / listing) = .ok text ∧ o.dependencies = .ok descriptor ∧
          t.write (project / descriptor) (descriptorText text).toUTF8 t.clock = .ok t₁ ∧
          t₁.remove (project / listing) = .ok t' ∧ d? = some (project / descriptor)) := by
  unfold finalize
  constructor
  · intro h
    dsimp only at h
    split at h
    · simp at h
    · next planned hplan =>
      obtain ⟨rfl, hd⟩ := Prod.mk.inj h
      simp only [bind_eq_ok, mapError_eq_ok, pure_eq_ok] at hplan
      obtain ⟨listing, hl, b, hb, hplan⟩ := hplan
      cases b with
      | false => exact ⟨listing, hl, .inl ⟨hb, rfl, (Except.ok.inj hd).symm⟩⟩
      | true => simp [bind_eq_ok] at hplan
    · next planned listing descriptor t₁ hplan =>
      simp only [bind_eq_ok, mapError_eq_ok, pure_eq_ok] at hplan
      obtain ⟨l, hl, b, hb, hplan⟩ := hplan
      cases b with
      | false => simp at hplan
      | true =>
        simp only [if_true, bind_eq_ok, mapError_eq_ok, Except.ok.injEq, Option.some.injEq,
          Prod.mk.injEq] at hplan
        obtain ⟨text, htext, d, hd, t₂, hwrite, rfl, rfl, rfl⟩ := hplan
        refine ⟨l, hl, .inr ⟨hb, d, text, t₂, htext, hd, hwrite, ?_⟩⟩
        cases hremove : t₂.remove (project / l) with
        | error e => simp [hremove] at h
        | ok t₃ =>
          rw [hremove] at h
          obtain ⟨rfl, hd⟩ := Prod.mk.inj h
          exact ⟨rfl, (Except.ok.inj hd).symm⟩
  · rintro ⟨listing, hl, ⟨hb, rfl, rfl⟩ | ⟨hb, descriptor, text, t₁, htext, hd, hwrite, hremove, rfl⟩⟩
    · simp [hl, hb]
    · simp only [hl, hb, htext, hd, hwrite, hremove, mapError_ok, ok_bind, if_true, pure_eq_ok]

/-- Writing the descriptor of an object touches a file beside it. -/
theorem evolves_descriptor (ht : t.WellFormed) (now : Timestamp) {descriptor : Path}
    (hd : o.dependencies = .ok descriptor) {bytes : ByteArray}
    (h : t.write (project / descriptor) bytes t.clock = .ok t') :
    t.Evolves t' now { l | l ∈ o.byproducts t project } ∅ ∧
      t'.stat (project / descriptor) = .ok (.file bytes t.clock) := by
  obtain ⟨hev, hstat⟩ := FileTree.evolves_write ht h (.inl rfl : _ ∨ _ = now)
  refine ⟨hev.mono ?_ (Set.Subset.refl _), hstat⟩
  rintro l rfl
  exact ObjectRecord.mem_byproducts.mpr ⟨descriptor, .inl hd, rfl⟩

/-- Where an object cannot be finished, nothing has changed, or the descriptor is there and the listing too. -/
theorem finalize_eq_error {e : Failure} (h : finalize t project o = (t', .error e)) :
    t' = t ∨ ∃ descriptor text, o.dependencies = .ok descriptor ∧
      t.write (project / descriptor) (descriptorText text).toUTF8 t.clock = .ok t' := by
  unfold finalize at h
  dsimp only at h
  split at h
  · exact .inl (Prod.mk.inj h).1.symm
  · simp at h
  · next planned listing descriptor t₁ hplan =>
    simp only [bind_eq_ok, mapError_eq_ok, pure_eq_ok] at hplan
    obtain ⟨l, -, b, -, hplan⟩ := hplan
    cases b with
    | false => simp at hplan
    | true =>
      simp only [if_true, bind_eq_ok, mapError_eq_ok, Except.ok.injEq, Option.some.injEq,
        Prod.mk.injEq] at hplan
      obtain ⟨text, -, d, hd, t₂, hwrite, -, -, rfl⟩ := hplan
      cases hremove : t₂.remove listing with
      | ok t₃ => simp [hremove] at h
      | error e =>
        rw [hremove] at h
        obtain ⟨rfl, -⟩ := Prod.mk.inj h
        exact .inr ⟨d, text, hd, hwrite⟩

/-- Whatever finishing an object comes to, it touches only the files beside it. -/
theorem evolves_beside (ht : t.WellFormed) {answer : Except Failure (Option Path)}
    (h : finalize t project o = (t', answer)) :
    t.Evolves t' now { l | l ∈ o.byproducts t project } ∅ := by
  cases answer with
  | error e =>
    rcases finalize_eq_error h with rfl | ⟨descriptor, text, hd, hwrite⟩
    · exact .refl ..
    · exact (evolves_descriptor ht now hd hwrite).1
  | ok d? =>
    obtain ⟨listing, hl, ⟨-, rfl, -⟩ | ⟨-, descriptor, text, t₁, -, hd, hwrite, hremove, -⟩⟩ :=
      finalize_eq_ok.mp h
    · exact .refl ..
    · obtain ⟨hev, -⟩ := evolves_descriptor ht now hd hwrite
      obtain ⟨hev', -⟩ := FileTree.evolves_remove now hremove
      refine hev.trans (hev'.mono ?_ (Set.Subset.refl _))
      rintro l rfl
      exact ObjectRecord.mem_byproducts.mpr ⟨listing, .inr hl, hev.place_eq _⟩

/-- Finishing an object touches only the files beside it. -/
theorem evolves_finalize (ht : t.WellFormed) (hs : (project / o.path).IsStraight) {d? : Option Path}
    (h : finalize t project o = (t', .ok d?)) :
    t.Evolves t' now { l | l ∈ o.byproducts t project } ∅ ∧
      (t' = t ∨ ∃ descriptor text m, o.dependencies = .ok descriptor ∧
        t'.stat (project / descriptor) = .ok (.file (descriptorText text).toUTF8 m)) := by
  refine ⟨evolves_beside ht h, ?_⟩
  obtain ⟨listing, hl, ⟨-, rfl, -⟩ | ⟨-, descriptor, text, t₁, -, hd, hwrite, hremove, -⟩⟩ :=
    finalize_eq_ok.mp h
  · exact .inl rfl
  · obtain ⟨-, hstat⟩ := evolves_descriptor ht now hd hwrite
    obtain ⟨hev', -⟩ := FileTree.evolves_remove now hremove
    obtain ⟨s, -, hdname, -⟩ := ObjectRecord.sibling_eq_ok hd
    obtain ⟨s', -, hlname, -⟩ := ObjectRecord.sibling_eq_ok hl
    have hdjoin := Path.name?_join (p := project) (Path.segments_ne_nil_of_name? hdname)
    have hljoin := Path.name?_join (p := project) (Path.segments_ne_nil_of_name? hlname)
    have hne : t₁.place (project / descriptor) ≠ t₁.place (project / listing) := by
      apply t₁.place_ne_of_suffix
      · exact ObjectRecord.isStraight_sibling hs hd Suffix.text_dependencies (by decide)
      · exact ObjectRecord.isStraight_sibling hs hl Suffix.text_listing (by decide)
      · exact hdjoin.trans hdname
      · exact hljoin.trans hlname
      · exact Segment.endsIn_withSuffix ..
      · exact Segment.endsIn_withSuffix ..
      · exact Suffix.text_dependencies
      · exact Suffix.text_listing
      · decide
    exact .inr ⟨descriptor, text, _, hd, hev'.stat_eq_ok hne hstat⟩

/-- Finishing an object does the same to trees that are alike where the files beside the object stand. -/
theorem finalize_alike {u : FileTree} (hlisting : ∀ q, o.listing = .ok q → t.AlikeAt u (project / q))
    (hdescriptor : ∀ q, o.dependencies = .ok q → t.AlikeAt u (project / q)) {d? : Option Path}
    (hf : finalize t project o = (t', .ok d?)) :
    ∃ u', finalize u project o = (u', .ok d?) ∧ ∀ l, t.AgreeAt u l → t'.AgreeAt u' l := by
  obtain ⟨listing, hl, ⟨hb, rfl, rfl⟩ | ⟨hb, descriptor, text, t₁, htext, hd, hwrite, hremove, rfl⟩⟩ :=
    finalize_eq_ok.mp hf
  · rw [← (hlisting listing hl).pathExists_eq] at hb
    exact ⟨u, finalize_eq_ok.mpr ⟨listing, hl, .inl ⟨hb, rfl, rfl⟩⟩, fun l hl ↦ hl⟩
  · obtain ⟨u₁, hwrite', hagree⟩ := (hdescriptor descriptor hd).write hwrite u.clock
    have halike : t₁.AlikeAt u₁ (project / listing) := by
      -- the listing is found, so that the descriptor does not bar the way to it
      obtain ⟨bytes, hread, -⟩ := bind_eq_ok.mp htext
      obtain ⟨m, hstat⟩ := FileTree.read_eq_ok.mp (mapError_eq_ok.mp hread)
      have hlocate := (FileTree.stat_eq_ok.mp hstat).1
      obtain ⟨l₁, hl₁, hfree, rfl⟩ := FileTree.write_eq_ok.mp hwrite
      obtain ⟨l₂, hl₂, hfree', rfl⟩ := FileTree.write_eq_ok.mp hwrite'
      obtain rfl := Except.ok.inj (hl₁.symm.trans ((hdescriptor descriptor hd).1.symm.trans hl₂))
      exact (hlisting listing hl).put hlocate rfl hfree hfree'
    obtain ⟨u', hremove', hagree'⟩ := halike.remove hremove
    rw [← (hlisting listing hl).pathExists_eq] at hb
    have htext' : readText u (project / listing) = .ok text := by
      rw [readText, (hlisting listing hl).read_eq]
      exact htext
    exact ⟨u', finalize_eq_ok.mpr ⟨listing, hl, .inr ⟨hb, descriptor, text, u₁, htext', hd, hwrite',
      hremove', rfl⟩⟩, fun l hl ↦ hagree' l (hagree l hl)⟩

/-- Finishing an object moves neither the current directory nor the clock. -/
theorem fixed_finalize {d? : Option Path} (h : finalize t project o = (t', .ok d?)) :
    t'.current = t.current ∧ t'.clock = t.clock := by
  obtain ⟨listing, -, ⟨-, rfl, -⟩ | ⟨-, descriptor, text, t₁, -, -, hwrite, hremove, -⟩⟩ :=
    finalize_eq_ok.mp h
  · exact ⟨rfl, rfl⟩
  · obtain ⟨l, -, -, rfl⟩ := FileTree.write_eq_ok.mp hwrite
    obtain ⟨l', -, -, -, -, rfl⟩ := FileTree.remove_eq_ok.mp hremove
    exact ⟨rfl, rfl⟩

/-- Finishing an object does the same to trees with the same contents. -/
theorem finalize_sameContents {u : FileTree} (h : t.SameContents u) {d? : Option Path}
    (hf : finalize t project o = (t', .ok d?)) :
    ∃ u', finalize u project o = (u', .ok d?) ∧ t'.SameContents u' := by
  obtain ⟨u', hf', hagree⟩ := finalize_alike (fun q _ ↦ h.alikeAt _) (fun q _ ↦ h.alikeAt _) hf
  obtain ⟨hcurrent, hclock⟩ := fixed_finalize hf
  obtain ⟨hcurrent', hclock'⟩ := fixed_finalize hf'
  exact ⟨u', hf', (hcurrent'.trans h.current).trans hcurrent.symm, (hclock'.trans h.clock).trans hclock.symm,
    fun l ↦ hagree l (h.entry l)⟩

/-- The headers that a descriptor's text names. -/
def headersIn (o : ObjectRecord) (text : String) : List Path :=
  (prerequisites text).filter fun p ↦ p ≠ o.path ∧ p ≠ o.source

/-- An object has headers if its descriptor is a text. -/
theorem headersOf_eq_some {hs : List Path} :
    headersOf t project o = .ok (some hs) ↔ ∃ descriptor bytes m text,
      o.dependencies = .ok descriptor ∧ t.stat (project / descriptor) = .ok (.file bytes m) ∧
        Text.Utf8.readText bytes = .ok text ∧ hs = headersIn o text := by
  unfold headersOf
  simp only [bind_eq_ok, mapError_eq_ok, pure_eq_ok]
  constructor
  · rintro ⟨descriptor, hd, b, hb, h⟩
    cases b with
    | false => simp at h
    | true =>
      simp only [if_true, readText, bind_eq_ok, mapError_eq_ok, Except.ok.injEq,
        Option.some.injEq] at h
      obtain ⟨text, ⟨bytes, hread, htext⟩, rfl⟩ := h
      obtain ⟨m, hstat⟩ := FileTree.read_eq_ok.mp hread
      exact ⟨descriptor, bytes, m, text, hd, hstat, htext, rfl⟩
  · rintro ⟨descriptor, bytes, m, text, hd, hstat, htext, rfl⟩
    refine ⟨descriptor, hd, true, FileTree.isFile_eq_true.mpr ⟨bytes, m, hstat⟩, ?_⟩
    have hread : t.read (project / descriptor) = .ok bytes := FileTree.read_eq_ok.mpr ⟨m, hstat⟩
    simp only [if_true, readText, bind_eq_ok, mapError_eq_ok, Except.ok.injEq, Option.some.injEq]
    exact ⟨text, ⟨bytes, hread, htext⟩, rfl⟩

/-- An object has no headers if no file is found as its descriptor. -/
theorem headersOf_eq_none :
    headersOf t project o = .ok none ↔ ∃ descriptor, o.dependencies = .ok descriptor ∧
      t.isFile (project / descriptor) = .ok false := by
  unfold headersOf
  simp only [bind_eq_ok, mapError_eq_ok, pure_eq_ok]
  constructor
  · rintro ⟨descriptor, hd, b, hb, h⟩
    cases b with
    | false => exact ⟨descriptor, hd, hb⟩
    | true => simp [readText, bind_eq_ok] at h
  · rintro ⟨descriptor, hd, hb⟩
    exact ⟨descriptor, hd, false, hb, by simp⟩

/-- The headers of objects are taken in if all their descriptors can be read; an object without a
descriptor keeps what it has. -/
theorem includeAll_eq_ok (headers : Table Path (List Path)) {os : List ObjectRecord}
    (hn : (os.map (·.path)).Nodup) (h : ∀ o ∈ os, ∃ hs?, headersOf t project o = .ok hs?) :
    ∃ headers' n, includeAll t project headers os = (headers', .ok n) ∧
      (∀ o ∈ os, ∀ hs?, headersOf t project o = .ok hs? →
        headers'.find? o.path = (hs?.or (headers.find? o.path))) ∧
      ∀ p, p ∉ os.map (·.path) → headers'.find? p = headers.find? p := by
  induction os generalizing headers with
  | nil => exact ⟨headers, 0, rfl, by simp, fun _ _ ↦ rfl⟩
  | cons o os ih =>
    obtain ⟨hnew, hn⟩ := List.nodup_cons.mp hn
    obtain ⟨hs?, hhs⟩ := h o List.mem_cons_self
    have hrest := fun o' ho' ↦ h o' (List.mem_cons_of_mem _ ho')
    rw [includeAll, hhs]
    cases hs? with
    | none =>
      obtain ⟨headers', n, hinclude, hmem, hother⟩ := ih headers hn hrest
      refine ⟨headers', n, hinclude, ?_, fun p hp ↦ hother p fun hp' ↦ hp ?_⟩
      · intro o' ho' hs?' hhs'
        rcases List.mem_cons.mp ho' with rfl | ho'
        · obtain rfl := Except.ok.inj (hhs.symm.trans hhs')
          exact hother _ hnew
        · exact hmem o' ho' hs?' hhs'
      · exact List.mem_cons_of_mem _ hp'
    | some hs =>
      obtain ⟨headers', n, hinclude, hmem, hother⟩ :=
        ih (headers.insert o.path hs) hn hrest
      refine ⟨headers', n + 1, by simp [hinclude, Except.map], ?_, ?_⟩
      · intro o' ho' hs?' hhs'
        rcases List.mem_cons.mp ho' with rfl | ho'
        · obtain rfl := Except.ok.inj (hhs.symm.trans hhs')
          rw [hother _ hnew, Table.find?_insert_self]
          rfl
        · have hne : o'.path ≠ o.path := fun heq ↦
            hnew (List.mem_map.mpr ⟨o', ho', heq⟩)
          rw [hmem o' ho' hs?' hhs', Table.find?_insert_of_ne _ _ hne]
      · intro p hp
        rw [List.map_cons, List.mem_cons, not_or] at hp
        rw [hother p hp.2, Table.find?_insert_of_ne _ _ hp.1]

/-- Taking in headers succeeds only if all descriptors can be read. -/
theorem headersOf_isOk_of_includeAll {headers : Table Path (List Path)} {os : List ObjectRecord} {n : Nat}
    (h : (includeAll t project headers os).2 = .ok n) :
    ∀ o ∈ os, ∃ hs?, headersOf t project o = .ok hs? := by
  induction os generalizing headers n with
  | nil => simp
  | cons o os ih =>
    intro o' ho'
    rw [includeAll] at h
    cases hhs : headersOf t project o with
    | error f => simp [hhs] at h
    | ok hs? =>
      rcases List.mem_cons.mp ho' with rfl | ho'
      · exact ⟨hs?, hhs⟩
      · rw [hhs] at h
        cases hs? with
        | none => exact ih h o' ho'
        | some hs =>
          obtain ⟨k, hk, -⟩ := map_eq_ok.mp h
          exact ih hk o' ho'

end ModuleBuild.Listing
