import ModuleBuild.FileTree.Basic
import ModuleBuild.Ini.Reader
import ModuleBuild.Path.Normal
import ModuleBuild.Settings.Basic
import ModuleBuild.Text.Utf8

/-!
# Modules

A module is one directory of a project, described by an INI file. Its `module` section names what the
module contributes; a `project` section, which only the root module's descriptor needs, sets the
project's settings. Everything else in the file is ignored.
-/

namespace ModuleBuild

/-- What a descriptor says about its module. Paths are relative to the project. -/
structure Module where
  /-- The descriptor. -/
  path : Path
  /-- The directory that sources and references start from. -/
  directory : Path
  /-- The target that the module declares; without one it contributes to that of its parent. -/
  target : Option String := none
  sources : List String := []
  /-- References to the descriptors of submodules. -/
  submodules : List String := []
  libs : List String := []
  /-- Names of targets that must be there first. -/
  prereqs : List String := []
  cflags : List String := []
  cxxflags : List String := []
  defines : List String := []
  includeDirs : List String := []
  project : Option PartialSettings := none
  deriving DecidableEq, Repr

/-- Why a descriptor cannot be loaded. -/
inductive LoadError where
  | notFound (module : Path)
  | notUtf8 (module : Path) (fault : Text.Utf8.Fault)
  | notIni (module : Path) (fault : Ini.Fault)
  deriving DecidableEq, Repr

/-- A load error in words. -/
def LoadError.message : LoadError → String
  | .notFound m => "Module descriptor not found: " ++ toString m
  | .notUtf8 m f => "Failed to parse module " ++ toString m ++ ": " ++ f.message
  | .notIni m f => "Failed to parse module " ++ toString m ++ ": " ++ f.message (toString m)

/-- Loading ends with a load error, or with a refusal of the operating system. -/
inductive LoadFailure where
  | load (error : LoadError)
  | file (error : FileError)
  deriving DecidableEq, Repr

namespace Module

/-- The directory of a descriptor. -/
def directoryOf (path : Path) : Path := path.parent.normalize

/-- The descriptor that a directory is referred to for. -/
def defaultFile : Path := .ofString "module.ini"

/-- The module that a document describes. -/
def ofDocument (path : Path) (document : Ini.Document) : Module :=
  let value? (key : String) := document.value? "module" key
  let items (key : String) := ((value? key).map Text.ItemList.items).getD []
  let flags (key : String) := ((value? key).map Text.ShellWords.split).getD []
  { path
    directory := directoryOf path
    target := ((value? "target").map Text.trimmed).filter (· ≠ "")
    sources := items "sources"
    submodules := items "submodules"
    libs := items "libs"
    prereqs := items "prereqs"
    cflags := flags "cflags"
    cxxflags := flags "cxxflags"
    defines := items "defines"
    includeDirs := items "include_dirs"
    project :=
      if document.hasSection "project" then some (.ofSection (document.value? "project")) else none }

/-- The module that the bytes of a descriptor describe. A fault of the text before bytes that are not
UTF-8 is reported first. -/
def ofBytes (path : Path) (bytes : ByteArray) : Except LoadError Module :=
  let (ls, fault?) := Text.Utf8.readLines bytes
  match Ini.State.readAll {} 1 ls, fault? with
  | .error fault, _ => .error (.notIni path fault)
  | .ok _, some fault => .error (.notUtf8 path fault)
  | .ok st, none =>
    match st.finish with
    | .error fault => .error (.notIni path fault)
    | .ok document => .ok (ofDocument path document)

/-- Load a module of the project in the directory `project`. -/
def load (t : FileTree) (project path : Path) : Except LoadFailure Module := do
  let file := project / path
  if ← (t.isFile file).mapError .file then
    let bytes ← (t.read file).mapError .file
    (ofBytes path bytes).mapError .load
  else
    .error (.load (.notFound path))

/-- The descriptor that a reference in a module leads to. A reference to a directory stands for the
default descriptor in it. -/
def submodulePath (t : FileTree) (project directory : Path) (reference : String) :
    Except FileError Path := do
  let path := (directory / Path.ofString reference).normalize
  return if ← t.isDirectory (project / path) then path / defaultFile else path

end Module

end ModuleBuild
