import ModuleBuild.FileTree.Basic

/-!
# Toolchains

Compilers, archivers and linkers, seen from outside: a command is started in a directory, may change the
file tree, and ends in one of three ways.
-/

namespace ModuleBuild

/-- How a command ends. -/
inductive Response where
  /-- Its program cannot be started. -/
  | cannotStart (reason : String)
  /-- The user broke it off. -/
  | interrupted
  | exited (status : Nat) (stdout stderr : String)
  deriving DecidableEq, Repr

/-- What commands do: the tree that a command leaves when it is started in a directory of a tree, and how
it ends. -/
abbrev Toolchain := FileTree → (directory : Path) → (command : List String) → FileTree × Response

/-- The toolchain that has no programs. -/
def Toolchain.absent : Toolchain := fun t _ command ↦
  (t, .cannotStart (systemErrorText 2 "No such file or directory" (command.headD "")))

end ModuleBuild
