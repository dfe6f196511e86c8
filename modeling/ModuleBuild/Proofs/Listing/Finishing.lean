import ModuleBuild.Proofs.FileTree.Replacement
import ModuleBuild.Proofs.Listing.Descriptor
import ModuleBuild.Proofs.Listing.RoundTrip
import ModuleBuild.Proofs.Text.Lines

/-!
# From listings to descriptors

When an object is finished its listing gives way to the descriptor (`finalize_of_listing`), whatever the
object's path, and what the descriptor then says of headers is what the listing said (`read_back`).
-/

namespace ModuleBuild

/-- An object is made from its source and then its headers, if they are listed once and without the source. -/
theorem Graph.inputsOf_of_headers {g : Graph} {o : ObjectRecord} {hs : List Path}
    (h : g.headers.find? o.path = some hs) (hnodup : hs.Nodup) (hsource : o.source ∉ hs) :
    g.inputsOf o = o.source :: hs := by
  have hnew : hs.filter (fun p ↦ decide (p ∉ [o.source])) = hs :=
    List.filter_eq_self.mpr fun p hp ↦ by
      have : p ≠ o.source := fun heq ↦ hsource (heq ▸ hp)
      simpa using this
  rw [inputsOf, h, Option.getD_some, appendNew_eq, hnew, eraseDups_of_nodup hnodup, List.singleton_append]

namespace Listing

variable {t : FileTree} {project listing descriptor : Path} {o : ObjectRecord} {s : String}

/-- Where one file beside an object can be looked up, so can another one whose suffix is not longer. -/
theorem locate_sibling {x y : Suffix} {c d : Char} {p q : Path} (hp : o.sibling x = .ok p) (hq : o.sibling y = .ok q)
    (hc : x.text.toList = ['.', c]) (hd : y.text.toList = ['.', d]) (hcdot : c ≠ '.') (hddot : d ≠ '.')
    (hsize : y.text.utf8ByteSize ≤ x.text.utf8ByteSize) (hnull : d ≠ '\x00') {l : Location}
    (h : t.locate (project / p) = .ok l) :
    ∃ (s : Segment) (above : Location), l = s.withSuffix x :: above ∧
      t.locate (project / q) = .ok (s.withSuffix y :: above) := by
  obtain ⟨s, hs, hp⟩ := ObjectRecord.join_sibling project hp
  obtain ⟨s', hs', hq⟩ := ObjectRecord.join_sibling project hq
  obtain rfl := Option.some.inj (hs.symm.trans hs')
  have htext (x : Suffix) : (s.withSuffix x).text = .ofList (splitSuffix s.text.toList).1 ++ x.text :=
    String.toList_inj.mp (by simp [Segment.withSuffix])
  rw [hp] at h
  obtain ⟨above, rfl, hlocate⟩ := FileTree.locate_concat
    (Segment.ne_up_of_endsIn (s.endsIn_withSuffix x) hc hcdot)
    (Segment.ne_up_of_endsIn (s.endsIn_withSuffix y) hd hddot) (by
      rw [htext, htext, String.utf8ByteSize_append, String.utf8ByteSize_append]
      exact Nat.add_le_add_left hsize _) (by
      rw [htext, htext, String.toList_append, String.toList_append, hc, hd]
      simpa [hnull.symm] using Or.inl) h
  exact ⟨s, above, rfl, hq ▸ hlocate⟩

/-- Where the listing is found there is room for the descriptor, unless a directory stands there. -/
theorem locate_descriptor (hl : o.listing = .ok listing) (hd : o.dependencies = .ok descriptor)
    {l : Location} (h : t.locate (project / listing) = .ok l) :
    ∃ l', t.locate (project / descriptor) = .ok l' ∧ l' ≠ l := by
  obtain ⟨s, above, rfl, hlocate⟩ := locate_sibling hl hd Suffix.text_listing Suffix.text_dependencies (by decide)
    (by decide) (by decide +kernel) (by decide) h
  refine ⟨_, hlocate, fun heq ↦ ?_⟩
  have hend := (List.cons.inj heq).1 ▸ s.endsIn_withSuffix .dependencies
  exact absurd (hend.unique (s.endsIn_withSuffix .listing) Suffix.text_dependencies Suffix.text_listing)
    (by decide)

theorem readText_eq_ok {p : Path} {m : Timestamp} (h : t.stat p = .ok (.file s.toUTF8 m))
    (hs : '\r' ∉ s.toList) : readText t p = .ok s := by
  rw [readText, FileTree.read_eq_ok.mpr ⟨m, h⟩]
  change (Text.Utf8.readText s.toUTF8).mapError _ = _
  rw [readText_toUTF8, Text.normalizeNewlines_eq_self hs, String.ofList_toList]
  rfl

/-- A descriptor has carriage returns only if the listing has. -/
theorem return_notMem_descriptorText (h : '\r' ∉ s.toList) : '\r' ∉ (descriptorText s).toList := by
  have hphony {s : String} (h : '\r' ∉ s.toList) : '\r' ∉ (s ++ phonyRules s).toList := by
    rw [String.toList_append, List.mem_append]
    rintro (hmem | hmem)
    · exact h hmem
    · exact (mem_phonyRules hmem).elim h (by decide)
  unfold descriptorText
  dsimp only
  split
  · exact hphony h
  · exact hphony (by simpa using h)

/-- Finishing an object puts its descriptor in place of its listing, if no directory stands there. -/
theorem finalize_of_listing {m : Timestamp} (hl : o.listing = .ok listing)
    (hd : o.dependencies = .ok descriptor) (hstat : t.stat (project / listing) = .ok (.file s.toUTF8 m))
    (hs : '\r' ∉ s.toList) (hfree : ∀ m, t.stat (project / descriptor) ≠ .ok (.directory m)) :
    ∃ t', finalize t project o = (t', .ok (some (project / descriptor))) ∧
      t'.pathExists (project / listing) = .ok false ∧
      t'.stat (project / descriptor) = .ok (.file (descriptorText s).toUTF8 t.clock) := by
  obtain ⟨hlocate, hfile⟩ := FileTree.stat_eq_ok.mp hstat
  obtain ⟨l', hlocate', hne⟩ := locate_descriptor hl hd hlocate
  have hfree' : ∀ m, t.entry? l' ≠ some (.directory m) := fun m hm ↦
    hfree m (by rw [FileTree.stat, hlocate', ok_bind, hm])
  obtain ⟨t₁, t', hwrite, hremove, hgone, hthere⟩ :=
    FileTree.write_remove hlocate hlocate' hne hfile hfree' (descriptorText s).toUTF8 t.clock
  refine ⟨t', finalize_eq_ok.mpr ⟨listing, hl, .inr ⟨?_, descriptor, s, t₁, readText_eq_ok hstat hs, hd, hwrite,
    hremove, rfl⟩⟩, ?_, hthere⟩
  · rw [FileTree.pathExists, FileTree.probe, hstat]
    rfl
  · rw [FileTree.pathExists, FileTree.probe, hgone]
    rfl

/-- A descriptor that is a text without carriage returns says which headers its object has. -/
theorem headersOf_of_text {m : Timestamp} (hd : o.dependencies = .ok descriptor)
    (hstat : t.stat (project / descriptor) = .ok (.file s.toUTF8 m)) (hs : '\r' ∉ s.toList) :
    headersOf t project o = .ok (some (headersIn o s)) := by
  refine headersOf_eq_some.mpr ⟨descriptor, _, m, s, hd, hstat, ?_, rfl⟩
  rw [readText_toUTF8, Text.normalizeNewlines_eq_self hs, String.ofList_toList]

section Written

variable {entries : List (Gap × Path)} (hobject : IsListable (spelling o.path))
  (hentries : ∀ e ∈ entries, IsListable (spelling e.2)) (hne : entries ≠ [])

include hobject hentries in
theorem return_notMem_written (ended : Bool) : '\r' ∉ (written o.path entries ended).toList := by
  have hname {n : List Char} (hn : IsListable n) : '\r' ∉ escape n := fun hc ↦
    absurd (hn.plain_escape _ hc).1 (by decide)
  rw [written, String.toList_ofList]
  intro hc
  rcases List.mem_append.mp hc with hc | hc
  · rcases List.mem_append.mp hc with hc | hc
    · exact hname hobject hc
    · rcases mem_text ((List.mem_cons.mp hc).resolve_left (by decide)) with ⟨n, hn, hc⟩ | hc | ⟨-, hc⟩
      · exact hname (areListable_itemsOf hentries n hn) hc
      · exact absurd hc (by decide)
      · exact absurd hc (by decide)
  · cases ended <;> simp at hc

include hentries hne

/-- The descriptor that is made of a listing is the listing, its last line ended, and its phony rules. -/
theorem descriptorText_written (ended : Bool) : descriptorText (written o.path entries ended) =
    written o.path entries true ++ phonyRules (written o.path entries true) := by
  unfold descriptorText
  cases ended with
  | true =>
    have hend : (written o.path entries true).toList.getLast? = some '\n' := by
      rw [written, String.toList_ofList]
      exact List.getLast?_concat
    simp [hend]
  | false =>
    -- the last line ends with a name
    obtain ⟨front, e, rfl⟩ := (List.eq_nil_or_concat' entries).resolve_left hne
    obtain ⟨cs, c, hescape, hc, -⟩ := (hentries e (by simp)).exists_concat
    have hlast : (written o.path (front ++ [e]) false).toList.getLast? = some c := by
      simp [written, itemsOf, Item.text, hescape, List.getLast?_cons, ← List.append_assoc]
    have hempty : written o.path (front ++ [e]) false ≠ "" := by
      intro hempty
      simp [hempty] at hlast
    have hend : (written o.path (front ++ [e]) false).toList.getLast? ≠ some '\n' := by
      intro hend
      obtain rfl := Option.some.inj (hlast.symm.trans hend)
      exact absurd hc (by decide)
    have hended : written o.path (front ++ [e]) false ++ "\n" = written o.path (front ++ [e]) true :=
      String.toList_inj.mp (by simp [written])
    simp [hempty, hend, hended]

include hobject

/-- Of an object whose descriptor is made of a listing, the headers that are taken in are those of the
listing. -/
theorem includeHeaders_written {ended : Bool} {m : Timestamp} (hd : o.dependencies = .ok descriptor)
    (hstat : t.stat (project / descriptor) =
      .ok (.file (descriptorText (written o.path entries ended)).toUTF8 m))
    {g : Graph} (ho : o ∈ g.objects.values) (hnodup : (g.objects.values.map (·.path)).Nodup)
    (hothers : ∀ x ∈ g.objects.values, x ≠ o → ∃ hs?, headersOf t project x = .ok hs?) :
    ∃ g' n, includeHeaders t project g = (g', .ok n) ∧
      g'.headers.find? o.path =
        some ((entries.map Prod.snd).eraseDups.filter fun p ↦ p ≠ o.path ∧ p ≠ o.source) ∧
      g'.inputsOf o =
        o.source :: (entries.map Prod.snd).eraseDups.filter fun p ↦ p ≠ o.path ∧ p ≠ o.source := by
  have hheaders := headersOf_of_text hd hstat
    (return_notMem_descriptorText (return_notMem_written hobject hentries ended))
  have hin : headersIn o (descriptorText (written o.path entries ended)) =
      (entries.map Prod.snd).eraseDups.filter fun p ↦ p ≠ o.path ∧ p ≠ o.source := by
    rw [headersIn, descriptorText_written hentries hne,
      prerequisites_written_append hobject hentries hne, List.filter_filter]
    congr 1
    funext p
    simp [Bool.and_comm]
  rw [hin] at hheaders
  have hall : ∀ x ∈ g.objects.values, ∃ hs?, headersOf t project x = .ok hs? := by
    intro x hx
    by_cases hxo : x = o
    · exact hxo ▸ ⟨_, hheaders⟩
    · exact hothers x hx hxo
  obtain ⟨headers, n, hinclude, hfind, -⟩ := includeAll_eq_ok g.headers hnodup hall
  refine ⟨{ g with headers }, n, by rw [includeHeaders, hinclude], hfind o ho _ hheaders, ?_⟩
  refine Graph.inputsOf_of_headers (hfind o ho _ hheaders) ((nodup_eraseDups _).filter _) fun hmem ↦ ?_
  simp at hmem

end Written

/-- A listing is read back, whatever parts its names and whether or not its last line is ended: from its own
text, from the phony rules that are made of it, and from both behind one another once the last line is ended.
So when the object is finished its descriptor takes the place of the listing, and of the names those that are
neither the object nor its source become its headers. -/
theorem read_back {entries : List (Gap × Path)} (hobject : IsListable (spelling o.path))
    (hentries : ∀ e ∈ entries, IsListable (spelling e.2)) (hne : entries ≠ []) (ended : Bool) :
    prerequisites (written o.path entries ended) =
        (entries.map Prod.snd).eraseDups.filter (· ≠ o.path) ∧
      prerequisites (phonyRules (written o.path entries ended)) = (entries.map Prod.snd).eraseDups ∧
      prerequisites (written o.path entries true ++ phonyRules (written o.path entries ended)) =
        (entries.map Prod.snd).eraseDups.filter (· ≠ o.path) ∧
      ∀ (t : FileTree) (project listing descriptor : Path) (m : Timestamp),
        o.listing = .ok listing → o.dependencies = .ok descriptor →
        t.stat (project / listing) = .ok (.file (written o.path entries ended).toUTF8 m) →
        (∀ m, t.stat (project / descriptor) ≠ .ok (.directory m)) →
        ∃ t', finalize t project o = (t', .ok (some (project / descriptor))) ∧
          t'.pathExists (project / listing) = .ok false ∧
          t'.isFile (project / descriptor) = .ok true ∧
          ∀ g : Graph, o ∈ g.objects.values → (g.objects.values.map (·.path)).Nodup →
            (∀ x ∈ g.objects.values, x ≠ o → ∃ hs?, headersOf t' project x = .ok hs?) →
            ∃ g' n, includeHeaders t' project g = (g', .ok n) ∧
              g'.headers.find? o.path =
                some ((entries.map Prod.snd).eraseDups.filter fun p ↦ p ≠ o.path ∧ p ≠ o.source) ∧
              g'.inputsOf o = o.source ::
                (entries.map Prod.snd).eraseDups.filter fun p ↦ p ≠ o.path ∧ p ≠ o.source := by
  refine ⟨prerequisites_written hobject hentries hne ended, prerequisites_phonyRules hobject hentries ended,
    prerequisites_written_append hobject hentries hne ended, ?_⟩
  intro t project listing descriptor m hl hd hstat hfree
  obtain ⟨t', hfinalize, hgone, hthere⟩ :=
    finalize_of_listing hl hd hstat (return_notMem_written hobject hentries ended) hfree
  refine ⟨t', hfinalize, hgone, FileTree.isFile_eq_true.mpr ⟨_, _, hthere⟩, fun g ho hnodup hothers ↦ ?_⟩
  exact includeHeaders_written hobject hentries hne hd hthere ho hnodup hothers

/-- An object. -/
def compiled : ObjectRecord where
  path := .ofString "build/a.o"
  source := .ofString "a.c"
  language := .c

/-- What it is made from: its source, and on the next line, twice, a header with a space and a dollar sign in
its path. -/
def includes : List (Gap × Path) :=
  [(.spaces 0, .ofString "a.c"), (.wrap 1 2, .ofString "my dir/$x.h"), (.spaces 1, .ofString "my dir/$x.h")]

/-- The compiler has left its listing. -/
def compiledTree : FileTree where
  current := []
  clock := .ofSeconds 100
  nodes := .ofList [
    ((Path.ofString "build").segments, .directory (.ofSeconds 50)),
    ((Path.ofString "build/a.d").segments.reverse,
      .file (written compiled.path includes false).toUTF8 (.ofSeconds 100))]

/-- It is one of two objects; of the other there is no descriptor. -/
def compiledGraph : Graph where
  objects := .ofList ([compiled,
    { path := .ofString "build/b.o", source := .ofString "b.c", language := .c }].map fun o ↦ (o.path, o))

theorem read_back_of_compiled :
    written compiled.path includes false = "build/a.o: a.c \\\n  my\\ dir/$$x.h  my\\ dir/$$x.h" ∧
      prerequisites (written compiled.path includes false) =
        [.ofString "a.c", .ofString "my dir/$x.h"] ∧
      ∃ t' g' n, finalize compiledTree .here compiled = (t', .ok (some (.ofString "build/a.P"))) ∧
        t'.pathExists (.ofString "build/a.d") = .ok false ∧
        t'.isFile (.ofString "build/a.P") = .ok true ∧
        includeHeaders t' .here compiledGraph = (g', .ok n) ∧
        g'.headers.find? compiled.path = some [.ofString "my dir/$x.h"] ∧
        g'.inputsOf compiled = [.ofString "a.c", .ofString "my dir/$x.h"] := by
  have hlistable : ∀ e ∈ includes, IsListable (spelling e.2) := by decide +kernel
  obtain ⟨hraw, -, -, hread⟩ :=
    read_back (o := compiled) (by decide +kernel) hlistable (by decide) false
  have hnames : (includes.map Prod.snd).eraseDups = [.ofString "a.c", .ofString "my dir/$x.h"] := by
    decide +kernel
  have hfree : (compiledTree.stat (.here / .ofString "build/a.P")).toOption = none := by decide +kernel
  obtain ⟨t', hfinalize, hgone, hthere, hinclude⟩ := hread compiledTree .here (.ofString "build/a.d")
    (.ofString "build/a.P") (.ofSeconds 100) (toOption_eq_some.mp (by decide +kernel))
    (toOption_eq_some.mp (by decide +kernel)) (toOption_eq_some.mp (by decide +kernel))
    fun m hm ↦ Option.some_ne_none _ ((toOption_eq_some.mpr hm).symm.trans hfree)
  have htree : t' = (finalize compiledTree .here compiled).1 := by rw [hfinalize]
  have hothers : ∀ o ∈ compiledGraph.objects.values, o ≠ compiled →
      (headersOf t' .here o).toOption = some none := by
    rw [htree]
    decide +kernel
  obtain ⟨g', n, hheaders, hfind, hinputs⟩ := hinclude compiledGraph (by decide +kernel) (by decide +kernel)
    fun o ho hne ↦ ⟨none, toOption_eq_some.mp (hothers o ho hne)⟩
  rw [hnames] at hraw hfind hinputs
  exact ⟨by decide +kernel, hraw.trans (by decide +kernel), t', g', n, hfinalize, hgone, hthere, hheaders,
    hfind.trans (by decide +kernel), hinputs.trans (by decide +kernel)⟩

/-- If the last line is not ended, the first phony rule goes on with it, and what is read are other names. -/
theorem unended_line_runs_on :
    IsListable (spelling (.ofString "a.o")) ∧ IsListable (spelling (.ofString "a.c")) ∧
      prerequisites (written (.ofString "a.o") [(.spaces 0, .ofString "a.c")] false ++
        phonyRules (written (.ofString "a.o") [(.spaces 0, .ofString "a.c")] false)) =
          [.ofString "a.ca.c", .ofString ":"] ∧
      prerequisites (written (.ofString "a.o") [(.spaces 0, .ofString "a.c")] false ++
        phonyRules (written (.ofString "a.o") [(.spaces 0, .ofString "a.c")] false)) ≠ [.ofString "a.c"] := by
  decide +kernel

end Listing

end ModuleBuild
