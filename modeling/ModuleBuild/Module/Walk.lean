import ModuleBuild.Failure
import ModuleBuild.Module.Scope

/-!
# Walking the module tree

Modules are visited depth first, a module before its submodules and these in the order of their
references. A module that is referred to several times is visited once for each reference, each time in
the scope of the module that refers to it. A reference to a module that is being visited closes a loop
and ends the walk, as does a module that cannot be loaded.
-/

namespace ModuleBuild

/-- A module on the walk, with the scope in effect in it. -/
structure Visit where
  module : Module
  scope : Scope
  deriving DecidableEq, Repr

namespace Visit

/-- The target that the module contributes to. -/
def target (v : Visit) : Option Path := v.scope.target

end Visit

/-- A walk through modules. How it goes on after a visit is found out only when it is asked for, so that
who has had enough of a walk does not pay for the rest. -/
inductive Walk where
  /-- The walk ends, early if there is a failure. -/
  | stop (failure? : Option Failure)
  | visit (v : Visit) (rest : Unit → Walk)

namespace Walk

/-- The visits of a walk, in order. -/
def visits : Walk → List Visit
  | stop _ => []
  | visit v rest => v :: (rest ()).visits

/-- What ends a walk early. -/
def failure? : Walk → Option Failure
  | stop f? => f?
  | visit _ rest => (rest ()).failure?

/-- Walk on, unless the walk has ended early. -/
def andThen : Walk → (next : Unit → Walk) → Walk
  | stop none, next => next ()
  | stop (some f), _ => stop (some f)
  | visit v rest, next => visit v fun u ↦ (rest u).andThen next

/-- Walk on from an answer. A failure ends the walk. -/
def onward {α : Type} (walk : α → Walk) : Except Failure α → Walk
  | .error f => stop (some f)
  | .ok a => walk a

@[simp] theorem onward_error {α : Type} (walk : α → Walk) (f : Failure) :
    onward walk (.error f) = stop (some f) := rfl

@[simp] theorem onward_ok {α : Type} (walk : α → Walk) (a : α) : onward walk (.ok a) = walk a := rfl

/-- One walk after another. -/
def all {α : Type} (walk : α → Walk) : List α → Walk
  | [] => stop none
  | a :: as => (walk a).andThen fun _ ↦ all walk as

/-- The visits of a walk and, unless it ends early, those of the next. -/
theorem visits_andThen (w : Walk) (next : Unit → Walk) :
    (w.andThen next).visits =
      if w.failure?.isSome then w.visits else w.visits ++ (next ()).visits := by
  induction w with
  | stop f? => cases f? <;> simp [andThen, visits, failure?]
  | visit v rest ih => simp only [andThen, visits, failure?, ih]; split <;> simp [*]

/-- The first of two failures is that of the whole walk. -/
theorem failure?_andThen (w : Walk) (next : Unit → Walk) :
    (w.andThen next).failure? = (w.failure? <|> (next ()).failure?) := by
  induction w with
  | stop f? => cases f? <;> simp [andThen, failure?]
  | visit v rest ih => simp only [andThen, failure?, ih]

end Walk

namespace Module

/-- The target that a module declares. -/
def declaredTarget (m : Module) (targetDir : Path) : Option Path :=
  m.target.map fun name ↦ targetDir / Path.ofString name

/-- The module that a reference leads to from within a scope. -/
def follow (t : FileTree) (project : Path) (m : Module) (scope : Scope) (reference : String) :
    Except Failure Module := do
  let path ← (submodulePath t project m.directory reference).mapError .file
  if scope.modules.contains path then .error (.cycle path scope.modules.toList)
  else (load t project path).mapError .ofLoad

/-- The walk from a module on, through at most `depth` modules nested in each other. -/
def walk (t : FileTree) (project targetDir : Path) : (depth : Nat) → Module → Scope → Walk
  | 0, _, _ => .stop (some .endless)
  | depth + 1, m, scope =>
    let scope := scope.enter m.path m.directory (m.declaredTarget targetDir)
    .visit ⟨m, scope⟩ fun _ ↦
      Walk.all (fun reference ↦
        Walk.onward (fun child ↦ walk t project targetDir depth child scope)
          (follow t project m scope reference)) m.submodules

/-- How deep modules can nest. The modules on a chain have different paths, and a path in normal form is
told by its anchor, by the number of double dots in front, for which there is no room in a path beyond
the greatest length, and by the file that it leads to. -/
def maxDepth (t : FileTree) : Nat := 3 * FileTree.maxPath * t.nodes.entries.length + 1

/-- The walk from the root module. -/
def walkFrom (t : FileTree) (project targetDir : Path) (root : Module) : Walk :=
  walk t project targetDir (maxDepth t) root {}

end Module

end ModuleBuild
