import ModuleBuild.Module.Descriptor
import ModuleBuild.Source.Object
import ModuleBuild.Table

/-!
# Ownership of objects

Every object belongs to one source. Modules may list a source again, but two sources whose objects would
be one file are refused, as are sources in no known language.
-/

namespace ModuleBuild

/-- Why the sources of a module are refused. -/
inductive SourceError where
  /-- Sources in no known language. -/
  | unsupported (module : Path) (sources : List String)
  /-- Two sources with one object. -/
  | shared (module object owner source : Path)
  deriving DecidableEq, Repr

/-- The words in which a problem with sources is put. -/
def SourceError.text (problem : String) (module : Path) (sources : List String) : String :=
  problem ++ " in module " ++ toString module ++ " [" ++ " ".intercalate sources ++ "]"

/-- What is said of sources in no known language. -/
def SourceError.unsupportedProblem : String := "Unsupported source file(s)"

/-- A source error in words. -/
def SourceError.message : SourceError → String
  | .unsupported m sources => text unsupportedProblem m sources
  | .shared m object owner source =>
    text ("Sources share the object file " ++ toString object) m [toString owner, toString source]

/-- Collecting the objects of a module fails for its sources, or for a source without a name. -/
inductive CollectError where
  | source (error : SourceError)
  | nameless (error : Nameless)
  deriving DecidableEq, Repr

/-- The objects of the modules seen so far with their sources, and the languages of these. -/
structure Ownership where
  buildDir : Path
  languages : List Language := []
  sources : Table Path Path := .empty
  deriving DecidableEq, Repr

namespace Ownership

/-- Some module had a C++ source. -/
def hasCxx (o : Ownership) : Bool := o.languages.contains .cxx

/-- The directory of a module's objects. -/
def outputDir (o : Ownership) (m : Module) : Path := o.buildDir / m.directory

/-- The sources of a module with their languages, which all must be known. -/
def validate (m : Module) : Except SourceError (List (String × Language)) :=
  let language? (s : String) := Language.ofSource? (.ofString s)
  let bad := m.sources.filter fun s ↦ (language? s).isNone
  if bad.isEmpty then .ok (m.sources.filterMap fun s ↦ (language? s).map (s, ·))
  else .error (.unsupported m.path bad)

/-- Give objects to their sources, one after another. An object that another source has is refused. -/
def claim (m : Module) : Table Path Path → List (Path × Path) → Except SourceError (Table Path Path)
  | owners, [] => .ok owners
  | owners, (object, source) :: rest =>
    match owners.find? object with
    | none => claim m (owners.insert object source) rest
    | some owner =>
      if owner = source then claim m owners rest else .error (.shared m.path object owner source)

/-- The object and the path of a source that a module lists. -/
def place (o : Ownership) (m : Module) (source : String) : Except Nameless (Path × Path) := do
  let p := Path.ofString source
  return (← objectPath (o.outputDir m) p, m.directory / p)

/-- The record of a module's object, with the flags that the module sets. -/
def record (m : Module) (language : Language) (object source : Path) : ObjectRecord where
  path := object
  source := source
  language := language
  cflags := m.cflags
  cxxflags := m.cxxflags
  defines := m.defines.map ("-D" ++ ·)
  includeFlags := m.includeDirs.map ("-I" ++ ·)

/-- Collect the objects of a module. A module that is refused leaves no trace. -/
def collect (o : Ownership) (m : Module) :
    Except CollectError (Ownership × List ObjectRecord) := do
  let sources ← (validate m).mapError .source
  let places ← (sources.mapM fun s ↦ o.place m s.1).mapError .nameless
  let owners ← (claim m o.sources places).mapError .source
  let o := { o with sources := owners, languages := appendNew o.languages (sources.map Prod.snd) }
  return (o, List.zipWith (fun s p ↦ record m s.2 p.1 p.2) sources places)

end Ownership

end ModuleBuild
