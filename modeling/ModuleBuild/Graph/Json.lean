import ModuleBuild.Graph.Basic
import ModuleBuild.Text.Quoted

/-!
# Build graphs as JSON

The graph as a JSON text, indented by two spaces a level, with every character beyond ASCII escaped.
-/

namespace ModuleBuild

/-- The JSON values that a graph is made of. -/
inductive Json where
  | string (s : String)
  | array (values : List Json)
  | object (fields : List (String × Json))

namespace Json

/-- The escape of a UTF-16 unit. -/
def escapeUnit (n : Nat) : List Char := '\\' :: 'u' :: Text.hexDigits 4 n

/-- A character in a JSON string; one beyond the basic plane is two units. -/
def escapeChar (c : Char) : List Char :=
  let n := c.toNat
  if c = '"' then ['\\', '"']
  else if c = '\\' then ['\\', '\\']
  else if c = '\n' then ['\\', 'n']
  else if c = '\r' then ['\\', 'r']
  else if c = '\t' then ['\\', 't']
  else if n = 8 then ['\\', 'b']
  else if n = 12 then ['\\', 'f']
  else if 32 ≤ n && n < 127 then [c]
  else if n < 0x10000 then escapeUnit n
  else escapeUnit (0xD800 + (n - 0x10000) / 0x400) ++ escapeUnit (0xDC00 + (n - 0x10000) % 0x400)

/-- A JSON string. -/
def quote (s : String) : String := .ofList ('"' :: s.toList.flatMap escapeChar ++ ['"'])

/-- The line break before something that stands so many levels deep. -/
def newline (depth : Nat) : String := .ofList ('\n' :: List.replicate (2 * depth) ' ')

mutual

/-- The text of a value that stands so many levels deep. -/
def render (depth : Nat) : Json → String
  | .string s => quote s
  | .array [] => "[]"
  | .array (v :: vs) =>
    "[" ++ newline (depth + 1) ++ render (depth + 1) v ++ renderRest (depth + 1) vs ++
      newline depth ++ "]"
  | .object [] => "\x7b\x7d"
  | .object ((k, v) :: fs) =>
    "\x7b" ++ newline (depth + 1) ++ quote k ++ ": " ++ render (depth + 1) v ++
      renderFields (depth + 1) fs ++ newline depth ++ "\x7d"

/-- The values after the first in an array. -/
def renderRest (depth : Nat) : List Json → String
  | [] => ""
  | v :: vs => "," ++ newline depth ++ render depth v ++ renderRest depth vs

/-- The fields after the first in an object. -/
def renderFields (depth : Nat) : List (String × Json) → String
  | [] => ""
  | (k, v) :: fs =>
    "," ++ newline depth ++ quote k ++ ": " ++ render depth v ++ renderFields depth fs

end

/-- An array of strings. -/
def strings (xs : List String) : Json := .array (xs.map .string)

/-- An array of paths. -/
def paths (ps : List Path) : Json := strings (ps.map toString)

/-- The value of a setting. -/
def setting : SettingValue → Json
  | .text s => .string s
  | .items xs => strings xs

/-- A command. -/
def invocation (i : Invocation) : Json := .array (setting i.program :: i.arguments.map .string)

/-- A path. -/
def path (p : Path) : Json := .string (toString p)

end Json

/-- A target as JSON. -/
def Target.toJson (t : Target) : Json :=
  .object [("path", .path t.path), ("kind", .string t.kind.name), ("objects", .paths t.objects),
    ("prereqs", .paths t.prereqs), ("libs", .strings t.libs), ("ldflags", .strings t.ldflags)]

/-- An object as JSON. -/
def ObjectRecord.toJson (o : ObjectRecord) : Json :=
  .object [("path", .path o.path), ("source", .path o.source),
    ("language", .string o.language.name), ("flags", .strings o.flags),
    ("defines", .strings o.defines), ("includes", .strings o.includeFlags)]

/-- A compile rule as JSON. -/
def CompileRule.toJson (r : CompileRule) : Json :=
  .object [("extension", .string r.suffix), ("language", .string r.language.name),
    ("compiler", .setting r.compiler)]

/-- The action of a target as JSON. -/
def TargetAction.toJson (a : TargetAction) : Json :=
  .object [("kind", .string a.kindName), ("command", .invocation a.command)]

/-- A build graph as JSON. -/
def Graph.toJson (g : Graph) : Json :=
  let table {α : Type} (t : Table Path α) (f : α → Json) : Json :=
    .object (t.entries.map fun (p, a) ↦ (toString p, f a))
  .object [
    ("linker", .setting g.linker),
    ("targets", .array (g.targets.values.map Target.toJson)),
    ("objects", .array (g.objects.values.map ObjectRecord.toJson)),
    ("compile_rules", .array (g.compileRules.map CompileRule.toJson)),
    ("compile_actions", table g.compileActions fun a ↦ .invocation a.command),
    ("target_actions", table g.targetActions TargetAction.toJson),
    ("dependency_edges", table g.headers .paths)]

end ModuleBuild
