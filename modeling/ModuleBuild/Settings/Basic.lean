import ModuleBuild.Path.Basic
import ModuleBuild.Settings.Value
import ModuleBuild.Text.ItemList
import ModuleBuild.Text.ShellWords

/-!
# Project settings

The tools, flags and directories that hold for a whole build. Settings are laid over one another: the
defaults, the environment, the project section of the root descriptor, and overrides, each of which
replaces what it sets and leaves the rest (`Settings.apply`).
-/

namespace ModuleBuild

/-- The settings of a build. -/
structure Settings where
  cc : SettingValue := .text "cc"
  cxx : SettingValue := .text "g++"
  ar : SettingValue := .text "ar"
  /-- The linker; without one, a compiler links. -/
  lnk : Option SettingValue := none
  cflags : SettingValue := .items []
  cxxflags : SettingValue := .items []
  ldflags : SettingValue := .items []
  defines : SettingValue := .items []
  includeDirs : SettingValue := .items []
  buildDir : Path := .ofString "build"
  targetDir : Path := .here
  deriving DecidableEq, Repr

/-- Some of the settings of a build; `none` leaves a setting as it is. -/
structure PartialSettings where
  buildDir : Option String := none
  targetDir : Option String := none
  cc : Option SettingValue := none
  cxx : Option SettingValue := none
  ar : Option SettingValue := none
  lnk : Option SettingValue := none
  cflags : Option SettingValue := none
  cxxflags : Option SettingValue := none
  ldflags : Option SettingValue := none
  defines : Option SettingValue := none
  includeDirs : Option SettingValue := none
  deriving DecidableEq, Repr

namespace PartialSettings

/-- The settings of a project section, whose values are found by their keys. A program or directory is
set by a value that is not blank, a list by any value. -/
def ofSection (value? : String → Option String) : PartialSettings :=
  let text (key : String) := ((value? key).map Text.trimmed).filter (· ≠ "")
  let program (key : String) := (text key).map SettingValue.text
  let flags (key : String) := (value? key).map fun s ↦ .items (Text.ShellWords.split s)
  let items (key : String) := (value? key).map fun s ↦ .items (Text.ItemList.items s)
  { buildDir := text "build_dir"
    targetDir := text "target_dir"
    cc := program "cc"
    cxx := program "cxx"
    ar := program "ar"
    lnk := program "lnk"
    cflags := flags "cflags"
    cxxflags := flags "cxxflags"
    ldflags := flags "ldflags"
    defines := items "defines"
    includeDirs := items "include_dirs" }

/-- The settings of two layers, those of the second coming first. -/
def merge (s t : PartialSettings) : PartialSettings where
  buildDir := t.buildDir <|> s.buildDir
  targetDir := t.targetDir <|> s.targetDir
  cc := t.cc <|> s.cc
  cxx := t.cxx <|> s.cxx
  ar := t.ar <|> s.ar
  lnk := t.lnk <|> s.lnk
  cflags := t.cflags <|> s.cflags
  cxxflags := t.cxxflags <|> s.cxxflags
  ldflags := t.ldflags <|> s.ldflags
  defines := t.defines <|> s.defines
  includeDirs := t.includeDirs <|> s.includeDirs

end PartialSettings

namespace Settings

/-- The flags that make the project's definitions. -/
def defineFlags (s : Settings) : List String := s.defines.asItems.map ("-D" ++ ·)

/-- The flags that name the project's include directories. -/
def includeFlags (s : Settings) : List String := s.includeDirs.asItems.map ("-I" ++ ·)

/-- The names of the variables that settings are taken from. -/
def variableNames : List String :=
  ["CC", "CXX", "AR", "LNK", "CFLAGS", "CXXFLAGS", "LDFLAGS", "BUILD_DIR", "TARGET_DIR"]

/-- The defaults with the environment laid over them. Blank variables count as unset. -/
def ofEnvironment (value? : String → Option String) : Settings :=
  let text (name : String) := ((value? name).map Text.trimmed).filter (· ≠ "")
  let program (name : String) := (text name).map SettingValue.text
  let flags (name : String) := .items (((value? name).map Text.ShellWords.split).getD [])
  let defaults : Settings := {}
  { cc := (program "CC").getD defaults.cc
    cxx := (program "CXX").getD defaults.cxx
    ar := (program "AR").getD defaults.ar
    lnk := program "LNK"
    cflags := flags "CFLAGS"
    cxxflags := flags "CXXFLAGS"
    ldflags := flags "LDFLAGS"
    buildDir := ((text "BUILD_DIR").map Path.ofString).getD defaults.buildDir
    targetDir := ((text "TARGET_DIR").map Path.ofString).getD defaults.targetDir }

/-- Lay a layer over the settings. -/
def apply (s : Settings) (layer : PartialSettings) : Settings :=
  { cc := layer.cc.getD s.cc
    cxx := layer.cxx.getD s.cxx
    ar := layer.ar.getD s.ar
    lnk := layer.lnk <|> s.lnk
    cflags := layer.cflags.getD s.cflags
    cxxflags := layer.cxxflags.getD s.cxxflags
    ldflags := layer.ldflags.getD s.ldflags
    defines := layer.defines.getD s.defines
    includeDirs := layer.includeDirs.getD s.includeDirs
    buildDir := (layer.buildDir.map Path.ofString).getD s.buildDir
    targetDir := (layer.targetDir.map Path.ofString).getD s.targetDir }

/-- A layer that sets nothing changes nothing. -/
@[simp] theorem apply_nothing (s : Settings) : s.apply {} = s := by
  cases s; rfl

/-- Two layers one after the other are their merger. -/
theorem apply_apply (s : Settings) (a b : PartialSettings) :
    (s.apply a).apply b = s.apply (a.merge b) := by
  cases s; cases a; cases b
  simp only [apply, PartialSettings.merge, mk.injEq]
  grind

end Settings

end ModuleBuild
