/-!
# Stacks

Immutable stacks, which the scope of a module is made of. `pop_push` says that taking away what was put
on gives the stack back.
-/

namespace ModuleBuild

/-- Values put one on another. -/
structure Stack (α : Type) where
  /-- The values from the top down. -/
  fromTop : List α
  deriving DecidableEq, Repr

/-- What an empty stack cannot do. -/
inductive StackError where
  | pop
  | peek
  deriving DecidableEq, Repr

/-- A stack error in words. -/
def StackError.message : StackError → String
  | .pop => "pop() on an empty stack context"
  | .peek => "peek() on an empty stack context"

namespace Stack

variable {α : Type}

/-- The stack without values. -/
def empty : Stack α := ⟨[]⟩

instance : Inhabited (Stack α) := ⟨empty⟩

/-- The stack of the given values, the last of them on top. -/
def ofList (xs : List α) : Stack α := ⟨xs.reverse⟩

/-- The values from the bottom up. -/
def toList (s : Stack α) : List α := s.fromTop.reverse

/-- Put a value on top. -/
def push (s : Stack α) (a : α) : Stack α := ⟨a :: s.fromTop⟩

/-- Take the value on top away. -/
def pop (s : Stack α) : Except StackError (Stack α) :=
  match s.fromTop with
  | [] => .error .pop
  | _ :: xs => .ok ⟨xs⟩

/-- The value on top. -/
def peek (s : Stack α) : Except StackError α :=
  match s.fromTop with
  | [] => .error .peek
  | a :: _ => .ok a

/-- The value on top, or a default if there is none. -/
def peekD (s : Stack α) (default : α) : α := s.fromTop.headD default

/-- How many values there are. -/
def size (s : Stack α) : Nat := s.fromTop.length

/-- The value is among those of the stack. -/
def contains [BEq α] (s : Stack α) (a : α) : Bool := s.fromTop.contains a

/-- The stack in words, its values shown from the bottom up. -/
def describe (s : Stack α) (showValue : α → String) : String :=
  "StackContext([" ++ ", ".intercalate (s.toList.map showValue) ++ "])"

@[simp] theorem pop_push (s : Stack α) (a : α) : (s.push a).pop = .ok s := rfl

@[simp] theorem peekD_push (s : Stack α) (a b : α) : (s.push a).peekD b = a := rfl

@[simp] theorem toList_push (s : Stack α) (a : α) : (s.push a).toList = s.toList ++ [a] := by
  simp [push, toList]

@[simp] theorem size_push (s : Stack α) (a : α) : (s.push a).size = s.size + 1 := rfl

end Stack

end ModuleBuild
