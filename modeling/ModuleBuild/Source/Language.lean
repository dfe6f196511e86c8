import ModuleBuild.Path.Suffix

/-!
# Languages

The language of a source file is told by the suffix of its name.
-/

namespace ModuleBuild

/-- A language that is compiled. -/
inductive Language where
  | c
  | cxx
  deriving DecidableEq, Repr

namespace Language

/-- The name of a language. -/
def name : Language → String
  | .c => "c"
  | .cxx => "cxx"

/-- The suffixes of sources with their languages, in the order in which they are listed. -/
def suffixes : List (String × Language) :=
  [(".c", .c), (".C", .cxx), (".cc", .cxx), (".cp", .cxx), (".cpp", .cxx), (".CPP", .cxx),
    (".cxx", .cxx), (".c++", .cxx)]

/-- The language of sources with the given suffix. -/
def ofSuffix? (suffix : String) : Option Language := suffixes.lookup suffix

/-- The language of a source, if its suffix is one of a language. -/
def ofSource? (source : Path) : Option Language := ofSuffix? source.suffix

end Language

end ModuleBuild
