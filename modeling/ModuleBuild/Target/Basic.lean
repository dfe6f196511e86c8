import ModuleBuild.Path.Basic
import ModuleBuild.Table

/-!
# Targets

A target is a static archive or an executable, as its name says, with everything that modules
contribute to it.
-/

namespace ModuleBuild

/-- How a target is made. -/
inductive TargetKind where
  | archive
  | executable
  deriving DecidableEq, Repr

/-- The name of a kind of target. -/
def TargetKind.name : TargetKind → String
  | .archive => "archive"
  | .executable => "executable"

/-- The path of an archive ends in `.a`; every other target is an executable. -/
def TargetKind.ofPath (p : Path) : TargetKind :=
  if ['.', 'a'].isSuffixOf (toString p).toList then .archive else .executable

/-- The linker flag for a library. Of a name such as `libfoo.a` only the middle is given. -/
def libraryFlag (name : String) : String :=
  let cs := name.toList
  if ['l', 'i', 'b'].isPrefixOf cs && ['.', 'a'].isSuffixOf cs && 5 < cs.length then
    .ofList ('-' :: 'l' :: (cs.drop 3).take (cs.length - 5))
  else "-l" ++ name

/-- A target and what belongs to it. -/
structure Target where
  path : Path
  objects : List Path := []
  prereqs : List Path := []
  libs : List String := []
  ldflags : List String := []
  deriving DecidableEq, Repr

namespace Target

/-- How the target is made. -/
def kind (t : Target) : TargetKind := .ofPath t.path

/-- The target is an archive. -/
def isArchive (t : Target) : Bool := t.kind = .archive

/-- The linker flags for the target's libraries. -/
def libraryFlags (t : Target) : List String := t.libs.map libraryFlag

end Target

end ModuleBuild
