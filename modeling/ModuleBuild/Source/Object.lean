import ModuleBuild.Source.Language

/-!
# Objects

The object file of a source, with the flags that its module sets for it.
-/

namespace ModuleBuild

/-- The path has no last segment, so that no file can stand beside it. -/
structure Nameless where
  path : Path
  deriving DecidableEq, Repr

/-- An object and how it is compiled. -/
structure ObjectRecord where
  path : Path
  source : Path
  language : Language
  cflags : List String := []
  cxxflags : List String := []
  defines : List String := []
  includeFlags : List String := []
  deriving DecidableEq, Repr

/-- The object of a source in the directory `output`: the same name with the suffix of objects. -/
def objectPath (output source : Path) : Except Nameless Path :=
  match source.withSuffix? .object with
  | some p => .ok (output / p)
  | none => .error ⟨source⟩

namespace ObjectRecord

/-- The file beside the object that has another suffix. -/
def sibling (o : ObjectRecord) (x : Suffix) : Except Nameless Path :=
  match o.path.withSuffix? x with
  | some p => .ok p
  | none => .error ⟨o.path⟩

/-- The dependency descriptor that is kept beside the object. -/
def dependencies (o : ObjectRecord) : Except Nameless Path := o.sibling .dependencies

/-- The listing that the compiler leaves beside the object. -/
def listing (o : ObjectRecord) : Except Nameless Path := o.sibling .listing

/-- The module's flags for the language of the source. -/
def flags (o : ObjectRecord) : List String :=
  match o.language with
  | .c => o.cflags
  | .cxx => o.cxxflags

end ObjectRecord

end ModuleBuild
