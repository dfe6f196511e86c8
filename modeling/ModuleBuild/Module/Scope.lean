import ModuleBuild.Module.Stack
import ModuleBuild.Path.Basic

/-!
# Scopes

What is in effect while a module is visited: its directory, the target it contributes to, and the chain
of modules that led to it. Entering a module pushes one value on each of three stacks, and leaving it
pops them (`leave_enter`), so that the enclosing module finds its scope unchanged.
-/

namespace ModuleBuild

/-- The scope of a module. -/
structure Scope where
  directories : Stack Path := .empty
  targets : Stack (Option Path) := .empty
  /-- The descriptors that are being visited, the innermost on top. -/
  modules : Stack Path := .empty
  deriving DecidableEq, Repr

namespace Scope

/-- The directory in effect. -/
def directory (s : Scope) : Path := s.directories.peekD .here

/-- The target in effect, if there is one. -/
def target (s : Scope) : Option Path := s.targets.peekD none

/-- How many modules have been entered. -/
def depth (s : Scope) : Nat := s.modules.size

/-- The scope of a submodule. Without a target of its own it inherits the one in effect. -/
def enter (s : Scope) (module directory : Path) (target : Option Path) : Scope where
  directories := s.directories.push directory
  targets := s.targets.push (target <|> s.target)
  modules := s.modules.push module

/-- The scope in effect before the last module was entered. -/
def leave (s : Scope) : Except StackError Scope := do
  return { directories := ← s.directories.pop, targets := ← s.targets.pop, modules := ← s.modules.pop }

/-- Leaving a module brings back the scope from which it was entered. -/
@[simp] theorem leave_enter (s : Scope) (module directory : Path) (target : Option Path) :
    (s.enter module directory target).leave = .ok s := rfl

@[simp] theorem target_enter (s : Scope) (module directory : Path) (target : Option Path) :
    (s.enter module directory target).target = (target <|> s.target) := rfl

end Scope

end ModuleBuild
