/-!
# Log records

What the program says about its work besides its answers, each record at a level of importance.
-/

namespace ModuleBuild.Log

/-- How important a record is. -/
inductive Level where
  | debug
  | info
  | warning
  deriving DecidableEq, Repr

namespace Level

/-- The name of a level. -/
def name : Level → String
  | .debug => "DEBUG"
  | .info => "INFO"
  | .warning => "WARNING"

/-- The place of a level in the order of importance. -/
def rank : Level → Nat
  | .debug => 0
  | .info => 1
  | .warning => 2

end Level

/-- One thing said. -/
structure Record where
  level : Level
  text : String
  deriving DecidableEq, Repr

/-- The records of at least the given level. -/
def atLeast (level : Level) (records : List Record) : List Record :=
  records.filter fun r ↦ level.rank ≤ r.level.rank

end ModuleBuild.Log
