import ModuleBuild.Proofs.Answers
import ModuleBuild.Proofs.Table
import ModuleBuild.Settings.Override
import Mathlib.Data.List.Nodup

/-!
# Precedence of settings

Every setting comes from the first place that sets it: the overrides, the project section, the environment, and at last
the default. Which places set it is told for each setting alone (`Setting.firstSet`), by its kind. A layer changes what
it sets and nothing else (`content_apply`), so layers are told apart by their contents, and overrides are laid over one
another as mappings are updated (`override_precedence`).
-/

namespace ModuleBuild

/-- The names of the settings. -/
inductive Setting where
  | cc
  | cxx
  | ar
  | lnk
  | cflags
  | cxxflags
  | ldflags
  | defines
  | includeDirs
  | buildDir
  | targetDir
  deriving DecidableEq, Repr

/-- Uses of settings, which tell how their texts are read. -/
inductive SettingKind where
  | program
  | directory
  | flags
  | items
  deriving DecidableEq, Repr

/-- What a setting holds; a linker may be missing. -/
inductive SettingContent where
  | missing
  | value (value : SettingValue)
  | directory (path : Path)
  deriving DecidableEq, Repr

namespace Setting

/-- The key of a setting in a project section, and its name in overrides. -/
def name : Setting → String
  | cc => "cc"
  | cxx => "cxx"
  | ar => "ar"
  | lnk => "lnk"
  | cflags => "cflags"
  | cxxflags => "cxxflags"
  | ldflags => "ldflags"
  | defines => "defines"
  | includeDirs => "include_dirs"
  | buildDir => "build_dir"
  | targetDir => "target_dir"

/-- What a setting is for. -/
def kind : Setting → SettingKind
  | cc | cxx | ar | lnk => .program
  | cflags | cxxflags | ldflags => .flags
  | defines | includeDirs => .items
  | buildDir | targetDir => .directory

/-- The variable of the environment that sets it, if there is one. -/
def environmentName? : Setting → Option String
  | cc => some "CC"
  | cxx => some "CXX"
  | ar => some "AR"
  | lnk => some "LNK"
  | cflags => some "CFLAGS"
  | cxxflags => some "CXXFLAGS"
  | ldflags => some "LDFLAGS"
  | buildDir => some "BUILD_DIR"
  | targetDir => some "TARGET_DIR"
  | defines | includeDirs => none

/-- What a setting holds where nothing sets it. -/
def initial : Setting → SettingContent
  | cc => .value (.text "cc")
  | cxx => .value (.text "g++")
  | ar => .value (.text "ar")
  | lnk => .missing
  | cflags | cxxflags | ldflags | defines | includeDirs => .value (.items [])
  | buildDir => .directory (.ofString "build")
  | targetDir => .directory .here

/-- The text without the blanks at its ends, unless it is blank. -/
def nonblank? (s : String) : Option String := if Text.trimmed s = "" then none else some (Text.trimmed s)

/-- What a text sets. A blank text sets no program and no directory; flags and items are set by any text. -/
def ofText? (x : Setting) (s : String) : Option SettingContent :=
  match x.kind with
  | .program => (nonblank? s).map fun t ↦ .value (.text t)
  | .directory => (nonblank? s).map fun t ↦ .directory (.ofString t)
  | .flags => some (.value (.items (Text.ShellWords.split s)))
  | .items => some (.value (.items (Text.ItemList.items s)))

/-- What an override sets. -/
def ofValue (x : Setting) (v : SettingValue) : SettingContent :=
  match x.kind with
  | .directory => .directory (.ofString v.asText)
  | _ => .value v

/-- What the overrides set: those whose value is not missing. -/
def inOverrides? (x : Setting) (o : Overrides) : Option SettingContent :=
  ((Table.mk o).find? x.name).join.map x.ofValue

/-- What a project section sets, if there is one: the keys that it has. -/
def inSection? (x : Setting) (value? : Option (String → Option String)) : Option SettingContent :=
  value?.bind fun value? ↦ (value? x.name).bind x.ofText?

/-- What the environment sets: variables that are not empty. -/
def inEnvironment? (x : Setting) (value? : String → Option String) : Option SettingContent :=
  ((x.environmentName?.bind value?).filter (· ≠ "")).bind x.ofText?

/-- The first of the places that sets it, or else the default. -/
def firstSet (x : Setting) (o : Overrides) (keys? : Option (String → Option String)) (env : String → Option String) :
    SettingContent :=
  (x.inOverrides? o <|> x.inSection? keys? <|> x.inEnvironment? env).getD x.initial

theorem name_injective : Function.Injective name := by
  intro x y h
  cases x <;> cases y <;> first | rfl | exact absurd h (by decide)

theorem name_ne_reservedName (x : Setting) : x.name ≠ PartialSettings.reservedName := by
  cases x <;> decide

end Setting

namespace Overrides

/-- No name comes twice, and every name is that of a setting. -/
structure IsMapping (o : Overrides) : Prop where
  nodup : (Table.mk o).keys.Nodup
  names : ∀ k ∈ (Table.mk o).keys, ∃ x : Setting, k = x.name

/-- The first overrides with those of the second that are not missing put in their places, or behind them. -/
def updated (a b : Overrides) : Overrides :=
  ((b.filter (·.2.isSome)).foldl (fun t e ↦ t.insert e.1 e.2) (Table.mk a)).entries

end Overrides

/-- What a setting holds. -/
def Settings.content (s : Settings) : Setting → SettingContent
  | .cc => .value s.cc
  | .cxx => .value s.cxx
  | .ar => .value s.ar
  | .lnk => s.lnk.elim .missing .value
  | .cflags => .value s.cflags
  | .cxxflags => .value s.cxxflags
  | .ldflags => .value s.ldflags
  | .defines => .value s.defines
  | .includeDirs => .value s.includeDirs
  | .buildDir => .directory s.buildDir
  | .targetDir => .directory s.targetDir

/-- What a layer sets. -/
def PartialSettings.content? (s : PartialSettings) : Setting → Option SettingContent
  | .cc => s.cc.map .value
  | .cxx => s.cxx.map .value
  | .ar => s.ar.map .value
  | .lnk => s.lnk.map .value
  | .cflags => s.cflags.map .value
  | .cxxflags => s.cxxflags.map .value
  | .ldflags => s.ldflags.map .value
  | .defines => s.defines.map .value
  | .includeDirs => s.includeDirs.map .value
  | .buildDir => s.buildDir.map fun t ↦ .directory (.ofString t)
  | .targetDir => s.targetDir.map fun t ↦ .directory (.ofString t)

variable {s s' : Settings} {x : Setting} {a b o : Overrides}

/-! ### One setting at a time -/

/-- Settings are told by what they hold. -/
theorem Settings.ext_content (h : ∀ x, s.content x = s'.content x) : s = s' := by
  have hlnk : s.lnk = s'.lnk := by
    have hlnk := h .lnk
    simp only [content] at hlnk
    cases hs : s.lnk <;> cases hs' : s'.lnk <;> simp_all
  have hcc := SettingContent.value.inj (h .cc)
  have hcxx := SettingContent.value.inj (h .cxx)
  have har := SettingContent.value.inj (h .ar)
  have hcflags := SettingContent.value.inj (h .cflags)
  have hcxxflags := SettingContent.value.inj (h .cxxflags)
  have hldflags := SettingContent.value.inj (h .ldflags)
  have hdefines := SettingContent.value.inj (h .defines)
  have hincludeDirs := SettingContent.value.inj (h .includeDirs)
  have hbuildDir := SettingContent.directory.inj (h .buildDir)
  have htargetDir := SettingContent.directory.inj (h .targetDir)
  cases s
  cases s'
  simp_all

/-- A layer changes what it sets, and nothing else. -/
theorem Settings.content_apply (s : Settings) (l : PartialSettings) (x : Setting) :
    (s.apply l).content x = (l.content? x).getD (s.content x) := by
  cases x with
  | lnk => cases hlnk : l.lnk <;> simp [content, apply, PartialSettings.content?, hlnk]
  | buildDir => cases hdir : l.buildDir <;> simp [content, apply, PartialSettings.content?, hdir]
  | targetDir => cases hdir : l.targetDir <;> simp [content, apply, PartialSettings.content?, hdir]
  | _ => exact (Option.getD_map SettingContent.value _ _).symm

theorem Setting.filter_trimmed (s? : Option String) :
    (s?.map Text.trimmed).filter (· ≠ "") = s?.bind Setting.nonblank? := by
  cases s? with
  | none => rfl
  | some s => by_cases h : Text.trimmed s = "" <;> simp [Setting.nonblank?, Option.filter, h]

/-- A project section sets each setting by its key. -/
theorem PartialSettings.content?_ofSection (value? : String → Option String) (x : Setting) :
    (ofSection value?).content? x = (value? x.name).bind x.ofText? := by
  cases x with
  | cc | cxx | ar | lnk | buildDir | targetDir =>
    simp only [ofSection, content?, Setting.filter_trimmed, Option.map_bind, Option.map_map, Function.comp_def]
    rfl
  | cflags | cxxflags | ldflags | defines | includeDirs =>
    simp only [ofSection, content?, Option.map_map]
    exact Option.map_eq_bind

/-- The environment sets each setting by its variable. -/
theorem Settings.content_ofEnvironment (env : String → Option String) (x : Setting) :
    (ofEnvironment env).content x = (x.inEnvironment? env).getD x.initial := by
  cases hvalue : x.environmentName?.bind env with
  | none =>
    rw [Setting.inEnvironment?, hvalue]
    cases x with
    | defines | includeDirs => rfl
    | _ =>
      rw [Setting.environmentName?, Option.bind_some] at hvalue
      simp only [ofEnvironment, content, hvalue]
      rfl
  | some s =>
    rw [Setting.inEnvironment?, hvalue]
    cases x with
    | defines | includeDirs => cases hvalue
    | cflags | cxxflags | ldflags =>
      rw [Setting.environmentName?, Option.bind_some] at hvalue
      simp only [ofEnvironment, content, hvalue]
      by_cases hs : s = ""
      · subst hs
        decide +kernel
      · simp [Option.filter, hs, Setting.ofText?, Setting.kind]
    | _ =>
      rw [Setting.environmentName?, Option.bind_some] at hvalue
      simp only [ofEnvironment, content, hvalue, Setting.filter_trimmed]
      by_cases hs : s = ""
      · subst hs
        decide +kernel
      · cases hblank : Setting.nonblank? s <;>
          simp [Option.filter, hs, Setting.ofText?, Setting.kind, hblank, Setting.initial, Path.here]

/-! ### Overrides -/

namespace Overrides

variable {e : String × Option SettingValue} {k : String}

theorem find?_cons : (Table.mk (e :: o)).find? k = if e.1 = k then some e.2 else (Table.mk o).find? k := by
  by_cases h : e.1 = k <;> simp [Table.find?, h]

theorem IsMapping.nil : IsMapping [] := ⟨List.nodup_nil, fun _ h ↦ absurd h List.not_mem_nil⟩

theorem IsMapping.of_cons (h : IsMapping (e :: o)) :
    (∃ x : Setting, e.1 = x.name) ∧ (Table.mk o).find? e.1 = none ∧ IsMapping o := by
  obtain ⟨hnodup, hnames⟩ := h
  obtain ⟨hfirst, hnodup⟩ := List.nodup_cons.mp hnodup
  refine ⟨hnames e.1 List.mem_cons_self, ?_, hnodup, fun k hk ↦ hnames k (List.mem_cons_of_mem _ hk)⟩
  rw [← Option.not_isSome_iff_eq_none]
  exact mt ((Table.mk o).contains_iff_mem_keys e.1).mp hfirst

theorem IsMapping.any_reservedName (h : o.IsMapping) : o.any (·.1 = PartialSettings.reservedName) = false := by
  rw [List.any_eq_false]
  intro e he
  obtain ⟨x, hx⟩ := h.names e.1 (List.mem_map_of_mem he)
  simpa [hx] using x.name_ne_reservedName

/-- A value that is put in keeps the overrides a mapping. -/
theorem IsMapping.insert (h : a.IsMapping) (x : Setting) (v : Option SettingValue) :
    IsMapping ((Table.mk a).insert x.name v).entries := by
  have hkeys : (Table.mk ((Table.mk a).insert x.name v).entries).keys =
      if x.name ∈ (Table.mk a).keys then (Table.mk a).keys else (Table.mk a).keys ++ [x.name] :=
    (Table.mk a).keys_insert x.name v
  by_cases hx : x.name ∈ (Table.mk a).keys
  · rw [if_pos hx] at hkeys
    exact ⟨hkeys ▸ h.nodup, hkeys ▸ h.names⟩
  · rw [if_neg hx, ← List.concat_eq_append] at hkeys
    refine ⟨hkeys ▸ List.Nodup.concat hx h.nodup, fun k hk ↦ ?_⟩
    rw [hkeys, List.concat_eq_append] at hk
    obtain hk | hk := List.mem_append.mp hk
    · exact h.names k hk
    · exact ⟨x, List.mem_singleton.mp hk⟩

theorem updated_cons (a : Overrides) (e : String × Option SettingValue) (b : Overrides) :
    a.updated (e :: b) = if e.2.isSome then updated ((Table.mk a).insert e.1 e.2).entries b else a.updated b := by
  rw [updated, List.filter_cons]
  split <;> rfl

theorem IsMapping.updated (ha : a.IsMapping) (hb : b.IsMapping) : (a.updated b).IsMapping := by
  induction b generalizing a with
  | nil => exact ha
  | cons e b ih =>
    obtain ⟨⟨x, hx⟩, -, hb⟩ := hb.of_cons
    rw [updated_cons]
    split
    · exact ih (hx ▸ ha.insert x e.2) hb
    · exact ih ha hb

/-- Of updated overrides a value is the second one, or the first where the second is missing. -/
theorem find?_updated (hb : b.IsMapping) (a : Overrides) (k : String) :
    ((Table.mk (a.updated b)).find? k).join = (((Table.mk b).find? k).join <|> ((Table.mk a).find? k).join) := by
  induction b generalizing a with
  | nil => rfl
  | cons e b ih =>
    obtain ⟨-, hnone, hb⟩ := hb.of_cons
    rw [updated_cons, find?_cons]
    by_cases hk : e.1 = k
    · subst hk
      rw [if_pos rfl]
      cases hv : e.2 with
      | none =>
        rw [if_neg (by simp), ih hb, hnone]
        rfl
      | some v =>
        rw [Option.isSome_some, if_pos rfl, ih hb, hnone, Table.find?_insert_self]
        rfl
    · rw [if_neg hk]
      split
      · rw [ih hb, Table.find?_insert_of_ne _ _ (Ne.symm hk)]
      · exact ih hb a

end Overrides

/-! ### Layers of overrides -/

namespace PartialSettings

/-- What one override does to a layer. -/
def addOverride (l : PartialSettings) (e : String × Option SettingValue) : Except OverrideError PartialSettings :=
  match e.2 with
  | none => .ok l
  | some v =>
    match l.set? e.1 v with
    | some l => .ok l
    | none => .error (.unknown e.1)

theorem ofOverrides_eq (h : o.IsMapping) : ofOverrides o = o.foldlM addOverride {} := by
  rw [ofOverrides, if_neg (by simp [h.any_reservedName])]
  rfl

/-- An override sets one setting. -/
theorem exists_set? (l : PartialSettings) (x : Setting) (v : SettingValue) : ∃ l',
    l.set? x.name v = some l' ∧ ∀ y, l'.content? y = if y = x then some (x.ofValue v) else l.content? y := by
  cases x <;> exact ⟨_, rfl, fun y ↦ by cases y <;> rfl⟩

/-- An override without a value sets none. -/
theorem exists_addOverride (l : PartialSettings) (x : Setting) (v? : Option SettingValue) : ∃ l',
    l.addOverride (x.name, v?) = .ok l' ∧
      ∀ y, l'.content? y = if y = x then (v?.map x.ofValue <|> l.content? y) else l.content? y := by
  cases v? with
  | none => exact ⟨l, rfl, fun y ↦ by split <;> rfl⟩
  | some v =>
    obtain ⟨l', hl', hcontent⟩ := l.exists_set? x v
    exact ⟨l', by simp only [addOverride, hl'], hcontent⟩

theorem exists_foldlM_addOverride (h : o.IsMapping) (l : PartialSettings) : ∃ l',
    o.foldlM addOverride l = .ok l' ∧ ∀ x : Setting, l'.content? x = (x.inOverrides? o <|> l.content? x) := by
  induction o generalizing l with
  | nil => exact ⟨l, rfl, fun x ↦ rfl⟩
  | cons e o ih =>
    obtain ⟨name, v?⟩ := e
    obtain ⟨⟨x, rfl⟩, hnone, ho⟩ := h.of_cons
    obtain ⟨l₁, hl₁, hcontent₁⟩ := l.exists_addOverride x v?
    obtain ⟨l', hl', hcontent⟩ := ih ho l₁
    refine ⟨l', by rw [List.foldlM_cons, hl₁, ok_bind, hl'], fun y ↦ ?_⟩
    rw [hcontent, hcontent₁, Setting.inOverrides?, Setting.inOverrides?, Overrides.find?_cons]
    by_cases hy : y = x
    · subst hy
      rw [if_pos rfl, if_pos rfl, hnone]
      rfl
    · rw [if_neg hy, if_neg fun hname ↦ hy (Setting.name_injective hname).symm]

/-- Overrides of settings make a layer that sets what they set. -/
theorem exists_ofOverrides (h : o.IsMapping) :
    ∃ l, ofOverrides o = .ok l ∧ ∀ x : Setting, l.content? x = x.inOverrides? o := by
  obtain ⟨l, hl, hcontent⟩ := exists_foldlM_addOverride h {}
  refine ⟨l, (ofOverrides_eq h).trans hl, fun x ↦ ?_⟩
  have hempty : content? {} x = none := by cases x <;> rfl
  rw [hcontent, hempty]
  cases x.inOverrides? o <;> rfl

end PartialSettings

/-- Overrides of settings change what they set, and nothing else. -/
theorem Settings.exists_override (s : Settings) (h : o.IsMapping) :
    ∃ s', s.override o = .ok s' ∧ ∀ x : Setting, s'.content x = (x.inOverrides? o).getD (s.content x) := by
  obtain ⟨l, hl, hcontent⟩ := PartialSettings.exists_ofOverrides h
  refine ⟨s.apply l, by rw [override, hl]; rfl, fun x ↦ ?_⟩
  rw [content_apply, hcontent]

/-- Overrides that follow others come to the first ones, updated. -/
theorem Settings.override_override (s : Settings) (ha : a.IsMapping) (hb : b.IsMapping) :
    (s.override a >>= (·.override b)) = s.override (a.updated b) := by
  obtain ⟨s₁, hs₁, hcontent₁⟩ := s.exists_override ha
  obtain ⟨s₂, hs₂, hcontent₂⟩ := s₁.exists_override hb
  obtain ⟨s₃, hs₃, hcontent₃⟩ := s.exists_override (ha.updated hb)
  rw [hs₁, ok_bind, hs₂, hs₃]
  refine congrArg Except.ok (ext_content fun x ↦ ?_)
  rw [hcontent₂, hcontent₁, hcontent₃, Setting.inOverrides?, Setting.inOverrides?, Setting.inOverrides?,
    Overrides.find?_updated hb]
  cases ((Table.mk b).find? x.name).join <;> rfl

/-- Overrides that are laid over once more change nothing. -/
theorem Settings.override_self (s : Settings) (h : o.IsMapping) : (s.override o >>= (·.override o)) = s.override o := by
  obtain ⟨s₁, hs₁, hcontent₁⟩ := s.exists_override h
  obtain ⟨s₂, hs₂, hcontent₂⟩ := s₁.exists_override h
  rw [hs₁, ok_bind, hs₂]
  refine congrArg Except.ok (ext_content fun x ↦ ?_)
  rw [hcontent₂, hcontent₁]
  cases x.inOverrides? o <;> rfl

/-- So does a layer. -/
theorem Settings.apply_self (s : Settings) (l : PartialSettings) : (s.apply l).apply l = s.apply l := by
  refine ext_content fun x ↦ ?_
  rw [content_apply, content_apply]
  cases l.content? x <;> rfl

/-- Before the overrides, a setting comes from the project section or from the environment. -/
theorem Settings.content_sectioned (env : String → Option String) (keys? : Option (String → Option String))
    (x : Setting) : ((keys?.map PartialSettings.ofSection).elim (ofEnvironment env) (ofEnvironment env).apply).content x =
      (x.inSection? keys? <|> x.inEnvironment? env).getD x.initial := by
  cases keys? with
  | none => exact content_ofEnvironment env x
  | some keys =>
    rw [Option.map_some, Option.elim_some, content_apply, PartialSettings.content?_ofSection, content_ofEnvironment,
      Setting.inSection?, Option.bind_some]
    cases (keys x.name).bind x.ofText? <;> rfl

/-- Whatever the environment, the project section and the overrides say, every setting holds the first that is set of
its override, its key, its variable and its default. To apply a section or overrides once more changes nothing, and
overrides that follow others come to the first ones, updated. -/
theorem Settings.override_precedence :
    (∀ (env : String → Option String) (keys? : Option (String → Option String)) (o : Overrides), o.IsMapping →
        ∃ s, ((keys?.map PartialSettings.ofSection).elim (ofEnvironment env) (ofEnvironment env).apply).override o = .ok s ∧
          ∀ x, s.content x = x.firstSet o keys? env) ∧
      (∀ (s : Settings) (keys : String → Option String),
        (s.apply (.ofSection keys)).apply (.ofSection keys) = s.apply (.ofSection keys)) ∧
      (∀ (s : Settings) (o : Overrides), o.IsMapping → (s.override o >>= (·.override o)) = s.override o) ∧
      (∀ (s : Settings) (a b : Overrides), a.IsMapping → b.IsMapping →
        (s.override a >>= (·.override b)) = s.override (a.updated b)) := by
  refine ⟨fun env keys? o ho ↦ ?_, fun s keys ↦ s.apply_self _, fun s o ho ↦ s.override_self ho,
    fun s a b ha hb ↦ s.override_override ha hb⟩
  obtain ⟨s, hs, hcontent⟩ := exists_override _ ho
  refine ⟨s, hs, fun x ↦ ?_⟩
  rw [hcontent, content_sectioned, Setting.firstSet]
  cases x.inOverrides? o <;> rfl

namespace Settings

/-- An environment with a blank directory. -/
def someVariables : String → Option String
  | "CC" => some "clang"
  | "CFLAGS" => some "-O2"
  | "BUILD_DIR" => some " "
  | _ => none

/-- A project section with a blank linker and an empty list of flags. -/
def someKeys : String → Option String
  | "lnk" => some "\t"
  | "cflags" => some ""
  | "build_dir" => some "obj "
  | "target_dir" => some "bin"
  | _ => none

/-- Overrides, one of them without a value. -/
def someOverrides : Overrides := [("cc", none), ("target_dir", some (.text "out")), ("lnk", some (.text "ld"))]

/-- Overrides that put a value in place of the missing one. -/
def moreOverrides : Overrides := [("lnk", none), ("cc", some (.text "gcc"))]

/-- The variable of the compiler is used, the empty list of the section, and the directory of the section; the linker
comes from the overrides. Updated, these set the compiler too. -/
theorem override_precedence_of_mixed : someOverrides.IsMapping ∧ moreOverrides.IsMapping ∧
    (∃ s, ((ofEnvironment someVariables).apply (.ofSection someKeys)).override someOverrides = .ok s ∧
      [Setting.cc, .cflags, .buildDir, .targetDir, .lnk].map s.content = [.value (.text "clang"), .value (.items []),
        .directory (.ofString "obj"), .directory (.ofString "out"), .value (.text "ld")]) ∧
    (override {} someOverrides >>= (·.override moreOverrides)) = override {} (someOverrides.updated moreOverrides) ∧
    someOverrides.updated moreOverrides =
      [("cc", some (.text "gcc")), ("target_dir", some (.text "out")), ("lnk", some (.text "ld"))] := by
  have hsome : someOverrides.IsMapping :=
    ⟨by decide, List.forall_iff_forall_mem.mp ⟨⟨.cc, rfl⟩, ⟨.targetDir, rfl⟩, ⟨.lnk, rfl⟩⟩⟩
  have hmore : moreOverrides.IsMapping := ⟨by decide, List.forall_iff_forall_mem.mp ⟨⟨.lnk, rfl⟩, ⟨.cc, rfl⟩⟩⟩
  obtain ⟨hfirst, -, -, hupdated⟩ := override_precedence
  obtain ⟨s, hs, hcontent⟩ := hfirst someVariables (some someKeys) someOverrides hsome
  refine ⟨hsome, hmore, ⟨s, hs, ?_⟩, hupdated {} _ _ hsome hmore, by decide +kernel⟩
  rw [List.map_congr_left fun x _ ↦ hcontent x]
  decide +kernel

end Settings

end ModuleBuild
