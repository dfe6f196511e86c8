import ModuleBuild.Module.Descriptor
import ModuleBuild.Proofs.FileTree.Lookup
import ModuleBuild.Proofs.Ini.Reading
import ModuleBuild.Proofs.Text.ItemList
import ModuleBuild.Proofs.Text.ShellWords
import Mathlib.Data.List.Nodup

/-!
# Descriptors are read back

A module is written as a section with one entry for each of its fields, in any order. Items may be parted by any gap
of blanks, commas and folded lines, flags are quoted (`Layout`). If the module's values can be written at all
(`IsWritable`), then loading the descriptor gives the module (`load_written`).
-/

namespace ModuleBuild

namespace Text

open ItemList in
theorem isSeparator_of_isBlank {c : Char} (h : isBlank c) : isSeparator c := by simp [isSeparator, h]

/-- A text without carriage returns is read as its lines. -/
theorem Utf8.readLines_toUTF8 {s : String} (h : '\r' ∉ s.toList) : readLines s.toUTF8 = (lines s.toList, none) := by
  rw [readLines, decode_toUTF8]
  simp only [normalizeNewlines_eq_self h]

end Text

namespace Module

/-! ### The fields of a module -/

/-- What a descriptor may say of a module, under a key of its own. -/
inductive Field where
  | target
  | sources
  | submodules
  | libs
  | prereqs
  | cflags
  | cxxflags
  | defines
  | includeDirs
  deriving DecidableEq, Repr

/-- The key of a field. -/
def Field.key : Field → String
  | .target => "target"
  | .sources => "sources"
  | .submodules => "submodules"
  | .libs => "libs"
  | .prereqs => "prereqs"
  | .cflags => "cflags"
  | .cxxflags => "cxxflags"
  | .defines => "defines"
  | .includeDirs => "include_dirs"

/-- The value of a field: a name that may be missing, a list of items, or a list of flags. -/
inductive FieldValue where
  | name (target : Option String)
  | items (items : List String)
  | flags (flags : List String)
  deriving DecidableEq, Repr

/-- The value of a field of a module. -/
def value (m : Module) : Field → FieldValue
  | .target => .name m.target
  | .sources => .items m.sources
  | .submodules => .items m.submodules
  | .libs => .items m.libs
  | .prereqs => .items m.prereqs
  | .cflags => .flags m.cflags
  | .cxxflags => .flags m.cxxflags
  | .defines => .items m.defines
  | .includeDirs => .items m.includeDirs

namespace FieldValue

/-- The field says nothing. -/
def isEmpty : FieldValue → Bool
  | .name target => target.isNone
  | .items xs => xs.isEmpty
  | .flags xs => xs.isEmpty

/-- The value can be written: a name as one line without blanks at its ends, items without separators, and flags on
one line. None but a flag may be empty. -/
def IsWritable : FieldValue → Prop
  | .name target => ∀ s ∈ target, s ≠ "" ∧ Text.trimmed s = s ∧ '\n' ∉ s.toList ∧ '\r' ∉ s.toList
  | .items xs => ∀ x ∈ xs, x ≠ "" ∧ ∀ c ∈ x.toList, Text.ItemList.isSeparator c = false
  | .flags xs => ∀ s ∈ xs, '\n' ∉ s.toList ∧ '\r' ∉ s.toList

instance : (v : FieldValue) → Decidable v.IsWritable
  | .name target => inferInstanceAs (Decidable
      (∀ s ∈ target, s ≠ "" ∧ Text.trimmed s = s ∧ '\n' ∉ s.toList ∧ '\r' ∉ s.toList))
  | .items xs =>
    have (x : String) : Decidable (∀ c ∈ x.toList, Text.ItemList.isSeparator c = false) := List.decidableBAll _ _
    inferInstanceAs (Decidable (∀ x ∈ xs, x ≠ "" ∧ ∀ c ∈ x.toList, Text.ItemList.isSeparator c = false))
  | .flags xs => inferInstanceAs (Decidable (∀ s ∈ xs, '\n' ∉ s.toList ∧ '\r' ∉ s.toList))

/-- The value of the same kind that is read where the text of an option stands. -/
def reread (text? : Option String) : FieldValue → FieldValue
  | .name _ => .name ((text?.map Text.trimmed).filter (· ≠ ""))
  | .items _ => .items ((text?.map Text.ItemList.items).getD [])
  | .flags _ => .flags ((text?.map Text.ShellWords.split).getD [])

end FieldValue

/-- The module can be written: its fields can, its directory is that of its descriptor, and it sets nothing for the
project. -/
structure IsWritable (m : Module) : Prop where
  value : ∀ f, (m.value f).IsWritable
  directory : m.directory = directoryOf m.path
  project : m.project = none

/-! ### Layouts -/

/-- What stands between two items: blanks and commas, at least one, and lines may end if the next is indented. -/
structure Gap where
  text : List Char
  ne_nil : text ≠ []
  separates : ∀ c ∈ text, Text.ItemList.isSeparator c ∧ c ≠ '\r'
  folded : Ini.isFolded text

/-- How a module is written. -/
structure Layout where
  /-- The fields, in the order of their entries. -/
  order : List Field
  /-- What stands behind the item at a place of a field. -/
  gap : Field → Nat → Gap
  /-- How an apostrophe at a place of the flag at a place of a field is written. -/
  escape : Field → Nat → Nat → Text.ShellWords.Escape
  /-- The last line is ended. -/
  ended : Bool

/-- Items with gaps between them. -/
def itemsText (gap : Nat → Gap) : List String → List Char
  | [] => []
  | [x] => x.toList
  | x :: y :: xs => x.toList ++ (gap 0).text ++ itemsText (fun n ↦ gap (n + 1)) (y :: xs)

namespace Layout

variable (L : Layout) (m : Module)

/-- A value as it is written. -/
def valueText (f : Field) : FieldValue → List Char
  | .name target => (target.getD "").toList
  | .items xs => itemsText (L.gap f) xs
  | .flags xs => Text.ShellWords.quoteAll (L.escape f) (xs.map String.toList)

/-- The entry of a field. -/
def entry (f : Field) : Ini.Entry := ⟨f.key, L.valueText f (m.value f)⟩

/-- The descriptor. -/
def text : String :=
  .ofList (Ini.sectionText "module" (L.order.map (L.entry m)) ++ if L.ended then ['\n'] else [])

/-- The module can be written like this: each field comes at most once, none that says something is left out, and no
row of a folded value begins with a comment mark. -/
structure Fits : Prop where
  nodup : L.order.Nodup
  mem_order : ∀ f, (m.value f).isEmpty = false → f ∈ L.order
  uncommented : ∀ f ∈ L.order, ∀ row ∈ ((L.valueText f (m.value f)).splitOn '\n').tail,
    Ini.opensComment row = false

end Layout

/-! ### Keys -/

theorem Field.isKey (f : Field) : Ini.IsKey f.key.toList := by
  cases f <;> decide

theorem Field.lowercase_key (f : Field) : Text.lowercase f.key = f.key := by
  refine Text.lowercase_eq_self (List.forall_iff_forall_mem.mp ?_)
  cases f <;> decide

theorem Field.key_injective : Function.Injective Field.key := by
  intro f f' h
  cases f <;> cases f' <;> first | rfl | exact absurd h (by decide)

/-! ### Values are read back -/

section Value

variable {L : Layout} {f : Field} {v : FieldValue}

/-- Items are written as they are joined. -/
theorem itemsText_eq (gap : Nat → Gap) (xs : List String) :
    itemsText gap xs = (Text.ItemList.joined (fun n ↦ .ofList (gap n).text) xs).toList := by
  induction xs generalizing gap with
  | nil => rfl
  | cons x xs ih =>
    cases xs with
    | nil => rfl
    | cons y xs => simp [itemsText, Text.ItemList.joined, ih]

/-- The items are the runs of their text. -/
theorem runs_itemsText (gap : Nat → Gap) {xs : List String}
    (h : ∀ x ∈ xs, x ≠ "" ∧ ∀ c ∈ x.toList, Text.ItemList.isSeparator c = false) :
    Text.runs Text.ItemList.isSeparator (itemsText gap xs) = xs.map String.toList := by
  rw [itemsText_eq]
  refine Text.ItemList.runs_joined (fun n ↦ ⟨by simpa using (gap n).ne_nil, fun c hc ↦ ?_⟩) h
  rw [String.toList_ofList] at hc
  exact ((gap n).separates c hc).1

/-- Trimming the rows of a text keeps the items. -/
theorem runs_joined (cs : List Char) :
    Text.runs Text.ItemList.isSeparator
        (Text.trimEnd (List.intercalate ['\n'] ((cs.splitOn '\n').map Text.trim))) =
      Text.runs Text.ItemList.isSeparator cs := by
  have hblank : ∀ c, Text.isBlank c → Text.ItemList.isSeparator c := fun _ ↦ Text.isSeparator_of_isBlank
  have hfeed : Text.ItemList.isSeparator '\n' := hblank _ rfl
  calc Text.runs Text.ItemList.isSeparator
        (Text.trimEnd (List.intercalate ['\n'] ((cs.splitOn '\n').map Text.trim)))
    _ = ((cs.splitOn '\n').map Text.trim).flatMap (Text.runs Text.ItemList.isSeparator) := by
        rw [Text.runs_trimEnd hblank, Text.runs_intercalate hfeed]
    _ = (cs.splitOn '\n').flatMap (Text.runs Text.ItemList.isSeparator) := by
        simp only [List.flatMap_map, Text.runs_trim hblank]
    _ = Text.runs Text.ItemList.isSeparator cs := by
        rw [← Text.runs_intercalate hfeed, List.intercalate_splitOn]

/-- A value is read back from the text of its option. -/
theorem FieldValue.reread_some (hv : v.IsWritable) :
    v.reread (some (.ofList (Text.trimEnd
      (List.intercalate ['\n'] (((L.valueText f v).splitOn '\n').map Text.trim))))) = v := by
  have hone {cs : List Char} (h : '\n' ∉ cs) :
      Text.trimEnd (List.intercalate ['\n'] ((cs.splitOn '\n').map Text.trim)) = Text.trim cs := by
    rw [List.splitOn_eq_singleton h]
    exact (congrArg Text.trimEnd (List.intercalate_singleton ..)).trans (Text.trimEnd_trim cs)
  cases v with
  | name target =>
    cases target with
    | none =>
      rw [Layout.valueText, Option.getD_none, String.toList_empty, hone List.not_mem_nil]
      rfl
    | some s =>
      obtain ⟨hempty, htrim, hline, -⟩ := hv s rfl
      have hs : Text.trim s.toList = s.toList := by
        simpa [Text.trimmed] using congrArg String.toList htrim
      rw [Layout.valueText, Option.getD_some, hone hline, hs]
      simp [FieldValue.reread, htrim, hempty]
  | items xs =>
    have hruns := (runs_joined (itemsText (L.gap f) xs)).trans (runs_itemsText (L.gap f) hv)
    simp [FieldValue.reread, Layout.valueText, Text.ItemList.items, hruns, Function.comp_def]
  | flags xs =>
    have hfeed : '\n' ∉ Text.ShellWords.quoteAll (L.escape f) (xs.map String.toList) :=
      Text.ShellWords.notMem_quoteAll (by decide) _ (List.forall_mem_map.mpr fun s hs ↦ (hv s hs).1)
    have htrim : Text.trim (Text.ShellWords.quoteAll (L.escape f) (xs.map String.toList)) =
        Text.ShellWords.quoteAll (L.escape f) (xs.map String.toList) := by
      by_cases hxs : xs = []
      · subst hxs
        rfl
      · have hne : xs.map String.toList ≠ [] := by simpa using hxs
        obtain ⟨hhead, hlast⟩ := Text.ShellWords.ends_quoteAll (L.escape f) hne
        refine Text.trim_eq_self (fun c hc ↦ ?_) fun c hc ↦ ?_
        · cases hhead.symm.trans hc
          rfl
        · cases hlast.symm.trans hc
          rfl
    rw [Layout.valueText, hone hfeed, htrim]
    simp [FieldValue.reread, Text.ShellWords.split_quoteAll]

/-- A value that says nothing is read where no option stands. -/
theorem FieldValue.reread_none (h : v.isEmpty) : v.reread none = v := by
  cases v <;> simp_all [isEmpty, reread]

theorem isFolded_itemsText (gap : Nat → Gap) {xs : List String}
    (h : ∀ x ∈ xs, ∀ c ∈ x.toList, Text.ItemList.isSeparator c = false) : Ini.isFolded (itemsText gap xs) := by
  have hitem {x : String} (hx : x ∈ xs) : Ini.isFolded x.toList :=
    Ini.isFolded_of_notMem fun hfeed ↦ absurd (h x hx _ hfeed) (by decide)
  induction xs generalizing gap with
  | nil => rfl
  | cons x xs ih =>
    have hx := hitem List.mem_cons_self
    cases xs with
    | nil => exact hx
    | cons y xs =>
      refine Ini.isFolded_append (Ini.isFolded_append hx (gap 0).folded) (ih _ ?_ ?_)
      · exact fun z hz ↦ h z (List.mem_cons_of_mem _ hz)
      · exact fun hz ↦ hitem (List.mem_cons_of_mem _ hz)

theorem isFolded_valueText (hv : v.IsWritable) : Ini.isFolded (L.valueText f v) := by
  cases v with
  | name target =>
    refine Ini.isFolded_of_notMem ?_
    cases target with
    | none => exact List.not_mem_nil
    | some s => exact (hv s rfl).2.2.1
  | items xs => exact isFolded_itemsText _ fun x hx ↦ (hv x hx).2
  | flags xs =>
    refine Ini.isFolded_of_notMem (Text.ShellWords.notMem_quoteAll (by decide) _ ?_)
    exact List.forall_mem_map.mpr fun s hs ↦ (hv s hs).1

theorem return_notMem_itemsText (gap : Nat → Gap) {xs : List String}
    (h : ∀ x ∈ xs, ∀ c ∈ x.toList, Text.ItemList.isSeparator c = false) : '\r' ∉ itemsText gap xs := by
  have hitem {x : String} (hx : x ∈ xs) : '\r' ∉ x.toList := fun hmem ↦ absurd (h x hx _ hmem) (by decide)
  induction xs generalizing gap with
  | nil => exact List.not_mem_nil
  | cons x xs ih =>
    have hx := hitem List.mem_cons_self
    cases xs with
    | nil => exact hx
    | cons y xs =>
      have hgap : '\r' ∉ (gap 0).text := fun hmem ↦ ((gap 0).separates _ hmem).2 rfl
      have hrest := ih (fun n ↦ gap (n + 1)) (fun z hz ↦ h z (List.mem_cons_of_mem _ hz))
        fun hz ↦ hitem (List.mem_cons_of_mem _ hz)
      simp [itemsText, hx, hgap, hrest]

theorem return_notMem_valueText (hv : v.IsWritable) : '\r' ∉ L.valueText f v := by
  cases v with
  | name target =>
    cases target with
    | none => exact List.not_mem_nil
    | some s => exact (hv s rfl).2.2.2
  | items xs => exact return_notMem_itemsText _ fun x hx ↦ (hv x hx).2
  | flags xs =>
    exact Text.ShellWords.notMem_quoteAll (by decide) _ (List.forall_mem_map.mpr fun s hs ↦ (hv s hs).2)

end Value

/-! ### Descriptors are read back -/

variable {m : Module} {L : Layout}

theorem return_notMem_text (hm : m.IsWritable) (L : Layout) : '\r' ∉ (L.text m).toList := by
  have hrows : ∀ row ∈ ('[' :: "module".toList ++ [']']) :: (L.order.map (L.entry m)).map Ini.Entry.text,
      '\r' ∉ row := by
    intro row hrow
    rcases List.mem_cons.mp hrow with rfl | hrow
    · decide
    · rw [List.map_map] at hrow
      obtain ⟨f, -, rfl⟩ := List.mem_map.mp hrow
      have hkey : '\r' ∉ f.key.toList := fun hmem ↦ absurd (f.isKey.plain _ hmem).1 (by decide)
      have hvalue := return_notMem_valueText (L := L) (f := f) (hm.value f)
      simp [Ini.Entry.text, Layout.entry, hkey, hvalue]
  have hsection := Text.notMem_intercalate (by decide : '\r' ∉ ['\n']) hrows
  rw [Layout.text, String.toList_ofList, List.mem_append]
  rintro (hmem | hmem)
  · exact hsection hmem
  · cases hended : L.ended <;> simp [hended] at hmem

/-- A text that is a document describes the module of that document. -/
theorem ofBytes_toUTF8 {path : Path} {s : String} {document : Ini.Document} (hreturn : '\r' ∉ s.toList)
    (h : Ini.Document.ofLines (Text.lines s.toList) = .ok document) :
    ofBytes path s.toUTF8 = .ok (ofDocument path document) := by
  obtain ⟨st, hread, hfinish⟩ := bind_eq_ok.mp h
  rw [ofBytes, Text.Utf8.readLines_toUTF8 hreturn]
  simp only [hread, hfinish]

/-- A module is told by its paths, the settings of its project and its fields. -/
theorem ext_value {m m' : Module} (hpath : m.path = m'.path) (hdirectory : m.directory = m'.directory)
    (hproject : m.project = m'.project) (h : ∀ f, m.value f = m'.value f) : m = m' := by
  have htarget := FieldValue.name.inj (h .target)
  have hitems {f : Field} {xs xs' : List String} (hx : m.value f = .items xs) (hx' : m'.value f = .items xs') :
      xs = xs' := FieldValue.items.inj (hx.symm.trans ((h f).trans hx'))
  have hflags {f : Field} {xs xs' : List String} (hx : m.value f = .flags xs) (hx' : m'.value f = .flags xs') :
      xs = xs' := FieldValue.flags.inj (hx.symm.trans ((h f).trans hx'))
  cases m
  cases m'
  simp only [Module.mk.injEq]
  exact ⟨hpath, hdirectory, htarget, hitems (f := .sources) rfl rfl, hitems (f := .submodules) rfl rfl,
    hitems (f := .libs) rfl rfl, hitems (f := .prereqs) rfl rfl, hflags (f := .cflags) rfl rfl,
    hflags (f := .cxxflags) rfl rfl, hitems (f := .defines) rfl rfl, hitems (f := .includeDirs) rfl rfl, hproject⟩

/-- A document gives a field the value that its option has. -/
theorem value_ofDocument {m : Module} {path : Path} {document : Ini.Document} (f : Field) :
    (ofDocument path document).value f = (m.value f).reread (document.value? "module" f.key) := by
  cases f <;> rfl

/-- The bytes of a descriptor describe the module that was written. -/
theorem ofBytes_text (hm : m.IsWritable) (hL : L.Fits m) : ofBytes m.path (L.text m).toUTF8 = .ok m := by
  have hoption (f : Field) : (L.entry m f).option = f.key := f.lowercase_key
  have hoptions : (L.order.map (L.entry m)).map Ini.Entry.option = L.order.map Field.key := by
    simp only [List.map_map, Function.comp_def, hoption]
  have hnodup : ((L.order.map (L.entry m)).map Ini.Entry.option).Nodup := by
    rw [hoptions]
    exact List.Nodup.map Field.key_injective hL.nodup
  have hreadable : ∀ e ∈ L.order.map (L.entry m), e.IsReadable := by
    intro e he
    obtain ⟨f, hf, rfl⟩ := List.mem_map.mp he
    exact ⟨f.isKey, isFolded_valueText (hm.value f), hL.uncommented f hf⟩
  have hdefault : "module" ≠ Ini.defaultSection := by decide
  have hdocument := Ini.Document.ofLines_sectionText (by decide) hdefault (by decide) hreadable hnodup L.ended
  rw [ofBytes_toUTF8 (return_notMem_text hm L) (by rw [Layout.text, String.toList_ofList]; exact hdocument)]
  refine congrArg Except.ok (ext_value rfl hm.directory.symm ?_ fun f ↦ ?_)
  · rw [hm.project]
    rfl
  · rw [value_ofDocument (m := m)]
    by_cases hf : f ∈ L.order
    · have hvalue := Ini.Document.value?_of_mem hdefault hnodup (List.mem_map_of_mem hf)
      rw [hoption] at hvalue
      rw [hvalue]
      exact FieldValue.reread_some (hm.value f)
    · rw [Ini.Document.value?_eq_none hdefault]
      · exact FieldValue.reread_none (by_contra fun h ↦ hf (hL.mem_order f (by simpa using h)))
      · rw [hoptions]
        exact fun hmem ↦ hf ((List.mem_map_of_injective Field.key_injective).mp hmem)

/-- A module that is written as a descriptor is loaded as it was. -/
theorem load_written (hm : m.IsWritable) (hL : L.Fits m) {t : FileTree} {project : Path} {modified : Timestamp}
    (hfile : t.stat (project / m.path) = .ok (.file (L.text m).toUTF8 modified)) :
    load t project m.path = .ok m := by
  have hisFile := FileTree.isFile_eq_true.mpr ⟨_, _, hfile⟩
  have hread := FileTree.read_eq_ok.mpr ⟨_, hfile⟩
  simp only [load, hisFile, hread, mapError_ok, ok_bind, if_true, ofBytes_text hm hL]

/-- A module whose values hold what has a meaning elsewhere in its descriptor. -/
def intricate : Module where
  path := .ofString "sub/../lib/module.ini"
  directory := .ofString "lib"
  target := some "[it's] = a : b # c"
  sources := ["#a.c", "b=c:d.c", "[module]", "%;e.c"]
  cflags := ["-DNAME='x y'", "", "a\\b"]
  defines := ["QUOTE='\""]

/-- The end of a line and the indentation of the next. -/
def fold : Gap where
  text := [' ', '\n', '\t', ' ']
  ne_nil := by decide
  separates := List.forall_iff_forall_mem.mp (by decide)
  folded := by decide

/-- A comma, a fold, and another comma. -/
def foldedCommas : Gap where
  text := [',', '\n', ' ', ',']
  ne_nil := by decide
  separates := List.forall_iff_forall_mem.mp (by decide)
  folded := by decide

/-- A layout with an empty value, folded lines, and both ways of writing an apostrophe. -/
def mixedLayout : Layout where
  order := [.cflags, .target, .libs, .sources, .defines]
  gap := fun _ n ↦ if n = 2 then foldedCommas else fold
  escape := fun _ _ n ↦ if n = 7 then .quotes else .backslash
  ended := false

/-- The descriptor's file. -/
def intricateTree : FileTree where
  current := []
  clock := .ofSeconds 100
  nodes := .ofList [
    ((Path.ofString "sub").segments, .directory (.ofSeconds 50)),
    ((Path.ofString "lib").segments, .directory (.ofSeconds 50)),
    ((Path.ofString "lib/module.ini").segments.reverse,
      .file (mixedLayout.text intricate).toUTF8 (.ofSeconds 60))]

theorem load_written_intricate :
    mixedLayout.text intricate =
        "[module]\ncflags = '-DNAME='\"'\"'x y'\\''' '' 'a\\b'\ntarget = [it's] = a : b # c\nlibs = \n" ++
        "sources = #a.c \n\t b=c:d.c \n\t [module],\n ,%;e.c\ndefines = QUOTE='\"" ∧
      load intricateTree .here intricate.path = .ok intricate := by
  have hwritable : intricate.IsWritable := by
    refine ⟨fun f ↦ ?_, by decide +kernel, rfl⟩
    cases f <;> decide +kernel
  have hfits : mixedLayout.Fits intricate := by
    refine ⟨by decide, fun f ↦ ?_, by decide +kernel⟩
    cases f <;> decide
  have hfile : (intricateTree.stat (.here / intricate.path)).toOption =
      some (.file (mixedLayout.text intricate).toUTF8 (.ofSeconds 60)) := by decide +kernel
  exact ⟨by decide +kernel, load_written hwritable hfits (toOption_eq_some.mp hfile)⟩

end Module
end ModuleBuild
