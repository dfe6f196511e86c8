import ModuleBuild.Proofs.FileTree.Shape
import ModuleBuild.Proofs.Path.Suffix
import ModuleBuild.Source.Object

/-!
# Files beside objects

The dependency descriptor and the listing of an object stand beside it. What a path leads to bears the
last name of the path, so that files whose names end in different suffixes stand at different locations
(`place_ne_of_suffix`).
-/

namespace ModuleBuild

namespace Path

theorem name?_join {p q : Path} (h : q.segments ≠ []) : (p / q).name? = q.name? := by
  cases hq : q.isAbsolute
  · rw [join_of_not_isAbsolute hq, name?, name?, List.getLast?_append,
      List.getLast?_eq_some_getLast h]
    rfl
  · rw [join_of_isAbsolute hq]

theorem segments_ne_nil_of_name? {p : Path} {s : Segment} (h : p.name? = some s) :
    p.segments ≠ [] := by
  intro hnil
  rw [name?, hnil] at h
  simp at h

theorem segments_join_ne_nil {p q : Path} (h : q.segments ≠ []) : (p / q).segments ≠ [] := by
  cases hq : q.isAbsolute
  · simp [join_of_not_isAbsolute hq, h]
  · rwa [join_of_isAbsolute hq]

end Path

/-- A location bears the last name of the path that leads there. -/
theorem Location.head?_follow (l : Location) {p : Path} {s : Segment} (hs : s ≠ .up) (h : p.name? = some s) :
    (l.follow p).head? = some s := by
  obtain ⟨ss, hp⟩ := List.getLast?_eq_some_iff.mp h
  rw [follow, hp, List.foldl_append, List.foldl_cons, List.foldl_nil, step, if_neg hs, List.head?_cons]

namespace FileTree

theorem head?_place_of_ne_up (t : FileTree) {p : Path} {s : Segment} (hs : s ≠ .up) (h : p.name? = some s) :
    (t.place p).head? = some s :=
  t.current.head?_follow hs h

theorem head?_place (t : FileTree) {p : Path} {s : Segment} (hs : p.IsStraight) (h : p.name? = some s) :
    (t.place p).head? = some s :=
  t.head?_place_of_ne_up (hs s (List.mem_of_getLast? h)) h

/-- Names that end in different suffixes are not at one location. -/
theorem place_ne_of_suffix (t : FileTree) {p q : Path} {s s' : Segment} {x y : Suffix} {c d : Char}
    (hp : p.IsStraight) (hq : q.IsStraight) (hps : p.name? = some s) (hqs : q.name? = some s')
    (hx : s.EndsIn x) (hy : s'.EndsIn y) (hc : x.text.toList = ['.', c])
    (hd : y.text.toList = ['.', d]) (hne : c ≠ d) : t.place p ≠ t.place q := by
  intro h
  have hhead := t.head?_place hp hps
  rw [h, t.head?_place hq hqs] at hhead
  obtain rfl := Option.some.inj hhead
  exact hne (hx.unique hy hc hd)

end FileTree

namespace ObjectRecord

/-- The record is one of an object: its path bears the suffix of objects, put on a name. -/
def IsObject (o : ObjectRecord) : Prop := ∃ s : Segment, o.path.name? = some (s.withSuffix .object)

theorem IsObject.exists_name {o : ObjectRecord} (h : o.IsObject) :
    ∃ s, o.path.name? = some s ∧ s.EndsIn .object := by
  obtain ⟨s, hs⟩ := h
  exact ⟨_, hs, s.endsIn_withSuffix _⟩

/-- The path beside an object that bears another suffix. -/
theorem sibling_eq_ok {o : ObjectRecord} {x : Suffix} {q : Path} (h : o.sibling x = .ok q) :
    ∃ s, o.path.name? = some s ∧ q.name? = some (s.withSuffix x) ∧
      q = ⟨o.path.anchor, o.path.segments.dropLast ++ [s.withSuffix x]⟩ := by
  unfold sibling Path.withSuffix? at h
  cases hs : o.path.name? with
  | none => simp [hs] at h
  | some s =>
    simp only [hs, Option.map_some, Except.ok.injEq] at h
    subst h
    exact ⟨s, rfl, by simp [Path.name?], rfl⟩

/-- From a directory too, the path beside an object differs from that of the object in its last segment. -/
theorem join_sibling {o : ObjectRecord} (project : Path) {x : Suffix} {q : Path} (h : o.sibling x = .ok q) :
    ∃ s, o.path.name? = some s ∧ project / q =
      ⟨(project / o.path).anchor, (project / o.path).segments.dropLast ++ [s.withSuffix x]⟩ := by
  obtain ⟨s, hs, -, rfl⟩ := sibling_eq_ok h
  refine ⟨s, hs, ?_⟩
  cases ha : o.path.isAbsolute
  · have ha' : (⟨o.path.anchor, o.path.segments.dropLast ++ [s.withSuffix x]⟩ : Path).isAbsolute =
        false := ha
    rw [Path.join_of_not_isAbsolute ha, Path.join_of_not_isAbsolute ha',
      List.dropLast_append_of_ne_nil (Path.segments_ne_nil_of_name? hs), List.append_assoc]
  · have ha' : (⟨o.path.anchor, o.path.segments.dropLast ++ [s.withSuffix x]⟩ : Path).isAbsolute =
        true := ha
    rw [Path.join_of_isAbsolute ha, Path.join_of_isAbsolute ha']

/-- The files beside an object stand in one directory with it. -/
theorem parent_sibling {o : ObjectRecord} {project q : Path} {x : Suffix} (h : o.sibling x = .ok q) :
    (project / q).parent = (project / o.path).parent := by
  obtain ⟨s, -, hq⟩ := join_sibling project h
  rw [hq, Path.parent, Path.parent, List.dropLast_concat]

/-- Beside an object there is room for the file with another suffix. -/
theorem IsObject.sibling_isOk {o : ObjectRecord} (h : o.IsObject) (x : Suffix) :
    ∃ q, o.sibling x = .ok q := by
  obtain ⟨s, hs⟩ := h
  exact ⟨_, by rw [sibling, Path.withSuffix?, hs]; rfl⟩

/-- The path beside an object that bears the suffix of objects is that of the object. -/
theorem IsObject.sibling_object {o : ObjectRecord} (h : o.IsObject) : o.sibling .object = .ok o.path := by
  obtain ⟨s, hs⟩ := h
  obtain ⟨ss, hsegments⟩ := List.getLast?_eq_some_iff.mp hs
  have hpath : (⟨o.path.anchor, ss ++ [s.withSuffix .object]⟩ : Path) = o.path := by rw [← hsegments]
  rw [sibling, Path.withSuffix?, hs, Option.map_some, Segment.withSuffix_withSuffix s _ (by decide +kernel),
    hsegments, List.dropLast_concat, hpath]

/-- No double dot leads to a file beside an object to which none leads. -/
theorem isStraight_sibling {o : ObjectRecord} {project q : Path} {x : Suffix} {c : Char}
    (hs : (project / o.path).IsStraight) (h : o.sibling x = .ok q)
    (hc : x.text.toList = ['.', c]) (hdot : c ≠ '.') : (project / q).IsStraight := by
  obtain ⟨s, -, hq⟩ := join_sibling project h
  rw [hq]
  intro s' hs'
  rcases List.mem_append.mp hs' with hs' | hs'
  · exact hs s' (List.dropLast_subset _ hs')
  · exact List.mem_singleton.mp hs' ▸ Segment.ne_up_of_endsIn (s.endsIn_withSuffix x) hc hdot

/-- The locations of the files that are kept and left beside an object. -/
def byproducts (t : FileTree) (project : Path) (o : ObjectRecord) : List Location :=
  (o.dependencies.toOption.toList ++ o.listing.toOption.toList).map fun q ↦ t.place (project / q)

theorem mem_byproducts {t : FileTree} {project : Path} {o : ObjectRecord} {l : Location} :
    l ∈ o.byproducts t project ↔
      ∃ q, (o.dependencies = .ok q ∨ o.listing = .ok q) ∧ l = t.place (project / q) := by
  have htoOption (x : Except Nameless Path) (q : Path) : q ∈ x.toOption.toList ↔ x = .ok q := by
    cases x <;> simp [Except.toOption, eq_comm]
  simp only [byproducts, List.mem_map, List.mem_append, htoOption, eq_comm]

/-- A path ends in another suffix than the files beside an object. -/
theorem place_not_mem_byproducts {o : ObjectRecord} (t : FileTree) {project p : Path} {s : Segment}
    {x : Suffix} {c : Char} (ho : (project / o.path).IsStraight) (hp : p.IsStraight)
    (hps : p.name? = some s) (hx : s.EndsIn x) (hc : x.text.toList = ['.', c]) (hP : c ≠ 'P')
    (hd : c ≠ 'd') : t.place p ∉ o.byproducts t project := by
  intro hmem
  obtain ⟨q, hq | hq, h⟩ := mem_byproducts.mp hmem
  · obtain ⟨s', -, hname, hq'⟩ := sibling_eq_ok hq
    have hjoin := Path.name?_join (p := project) (Path.segments_ne_nil_of_name? hname)
    exact t.place_ne_of_suffix hp (isStraight_sibling ho hq Suffix.text_dependencies (by decide)) hps
      (hjoin.trans hname) hx (Segment.endsIn_withSuffix _ _) hc Suffix.text_dependencies hP h
  · obtain ⟨s', -, hname, hq'⟩ := sibling_eq_ok hq
    have hjoin := Path.name?_join (p := project) (Path.segments_ne_nil_of_name? hname)
    exact t.place_ne_of_suffix hp (isStraight_sibling ho hq Suffix.text_listing (by decide)) hps
      (hjoin.trans hname) hx (Segment.endsIn_withSuffix _ _) hc Suffix.text_listing hd h

/-- No object is one of the files beside an object. -/
theorem IsObject.place_notMem_byproducts {o o' : ObjectRecord} (h : o.IsObject) (t : FileTree) {project : Path}
    (ho : (project / o.path).IsStraight) (ho' : (project / o'.path).IsStraight) :
    t.place (project / o.path) ∉ o'.byproducts t project := by
  obtain ⟨s, hname, hend⟩ := h.exists_name
  have hjoin : (project / o.path).name? = some s := (Path.name?_join (Path.segments_ne_nil_of_name? hname)).trans hname
  exact place_not_mem_byproducts t ho' ho hjoin hend Suffix.text_object (by decide) (by decide)

/-- Where the files beside an object stand. -/
theorem place_sibling {o : ObjectRecord} {x : Suffix} {c : Char} (t : FileTree) {project q : Path}
    {s : Segment} (ho : (project / o.path).IsStraight)
    (hs : o.path.name? = some (s.withSuffix .object)) (h : o.sibling x = .ok q)
    (hc : x.text.toList = ['.', c]) (hdot : c ≠ '.') :
    t.place (project / q) = s.withSuffix x :: (t.place (project / o.path)).tail := by
  obtain ⟨s', hname, hq⟩ := join_sibling project h
  obtain rfl := Option.some.inj (hs.symm.trans hname)
  have hqs := isStraight_sibling ho h hc hdot
  obtain ⟨ss, hsegments⟩ : ∃ ss, (project / o.path).segments = ss ++ [s.withSuffix .object] :=
    List.getLast?_eq_some_iff.mp ((Path.name?_join (Path.segments_ne_nil_of_name? hs)).trans hs)
  rw [FileTree.place_of_isStraight t ho, FileTree.place_of_isStraight t hqs, hq,
    Segment.withSuffix_withSuffix s x (by decide +kernel), hsegments]
  simp [Path.isAbsolute]

/-- An object stands where its name says. -/
theorem place_object {o : ObjectRecord} (t : FileTree) {project : Path} {s : Segment}
    (ho : (project / o.path).IsStraight) (hs : o.path.name? = some (s.withSuffix .object)) :
    t.place (project / o.path) = s.withSuffix .object :: (t.place (project / o.path)).tail := by
  have hname := Path.name?_join (p := project) (Path.segments_ne_nil_of_name? hs)
  obtain ⟨l, hl⟩ := List.head?_eq_some_iff.mp (t.head?_place ho (hname.trans hs))
  rw [hl, List.tail_cons]

/-- Different objects have different files beside them. -/
theorem byproducts_disjoint {o o' : ObjectRecord} (t : FileTree) {project : Path} (h : o.IsObject)
    (h' : o'.IsObject) (ho : (project / o.path).IsStraight) (ho' : (project / o'.path).IsStraight)
    (hne : t.place (project / o.path) ≠ t.place (project / o'.path)) {l : Location}
    (hl : l ∈ o.byproducts t project) : l ∉ o'.byproducts t project := by
  obtain ⟨s, hs⟩ := h
  obtain ⟨s', hs'⟩ := h'
  -- files with one suffix are at one location only if the objects are
  have hsame {x : Suffix} {c : Char} {q q' : Path} (hq : o.sibling x = .ok q)
      (hq' : o'.sibling x = .ok q') (hc : x.text.toList = ['.', c]) (hdot : c ≠ '.') :
      t.place (project / q) ≠ t.place (project / q') := by
    intro heq
    rw [place_sibling t ho hs hq hc hdot, place_sibling t ho' hs' hq' hc hdot] at heq
    obtain ⟨hhead, htail⟩ := List.cons.inj heq
    refine hne ?_
    rw [place_object t ho hs, place_object t ho' hs', htail, Segment.withSuffix_congr hhead]
  have hother {x y : Suffix} {c d : Char} {q q' : Path} (hq : o.sibling x = .ok q)
      (hq' : o'.sibling y = .ok q') (hc : x.text.toList = ['.', c]) (hd : y.text.toList = ['.', d])
      (hcdot : c ≠ '.') (hddot : d ≠ '.') (hcd : c ≠ d) :
      t.place (project / q) ≠ t.place (project / q') := by
    intro heq
    rw [place_sibling t ho hs hq hc hcdot, place_sibling t ho' hs' hq' hd hddot] at heq
    have hend := (List.cons.inj heq).1 ▸ s'.endsIn_withSuffix y
    exact hcd ((s.endsIn_withSuffix x).unique hend hc hd)
  intro hl'
  obtain ⟨q, hq, hl⟩ := mem_byproducts.mp hl
  obtain ⟨q', hq', hl'⟩ := mem_byproducts.mp hl'
  have heq := hl.symm.trans hl'
  rcases hq with hq | hq <;> rcases hq' with hq' | hq'
  · exact hsame hq hq' Suffix.text_dependencies (by decide) heq
  · exact hother hq hq' Suffix.text_dependencies Suffix.text_listing (by decide) (by decide) (by decide) heq
  · exact hother hq hq' Suffix.text_listing Suffix.text_dependencies (by decide) (by decide) (by decide) heq
  · exact hsame hq hq' Suffix.text_listing (by decide) heq

end ObjectRecord

end ModuleBuild
