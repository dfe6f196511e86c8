import ModuleBuild.Text.Integer
import ModuleBuild.Text.Quoted

/-!
# Options

The options of the commands and how arguments spell them. A long option may be cut short as long as only
one begins that way, and may bring its value after an equals sign; a short option may bring its value
without a gap, and short options without values may share a dash.
-/

namespace ModuleBuild.CommandLine

/-- An option of a command. -/
inductive Opt where
  | help
  | file
  | buildDir
  | targetDir
  | cc
  | cxx
  | ar
  | lnk
  | jobs
  | noProgress
  | verbose
  | version
  deriving DecidableEq, Repr

namespace Opt

/-- The option is followed by a value. -/
def takesValue : Opt → Bool
  | .help | .noProgress | .verbose | .version => false
  | _ => true

/-- The name of an option in messages. -/
def name : Opt → String
  | .help => "-h/--help"
  | .file => "-f/--file"
  | .buildDir => "--build-dir"
  | .targetDir => "--target-dir"
  | .cc => "--cc"
  | .cxx => "--cxx"
  | .ar => "--ar"
  | .lnk => "--lnk"
  | .jobs => "-j/--jobs"
  | .noProgress => "--no-progress"
  | .verbose => "-v/--verbose"
  | .version => "--version"

end Opt

/-- Spellings of options. -/
abbrev Spellings := List (String × Opt)

/-- The options of every command. -/
def commandOptions : Spellings :=
  [("-h", .help), ("--help", .help), ("-f", .file), ("--file", .file), ("--build-dir", .buildDir),
    ("--target-dir", .targetDir), ("--cc", .cc), ("--cxx", .cxx), ("--ar", .ar), ("--lnk", .lnk),
    ("-j", .jobs), ("--jobs", .jobs), ("--no-progress", .noProgress), ("-v", .verbose),
    ("--verbose", .verbose)]

/-- The options that stand in place of a command. -/
def programOptions : Spellings := [("-h", .help), ("--help", .help), ("--version", .version)]

/-- An option as an argument spells it. -/
structure Spelled where
  option : Opt
  /-- The option is spelled with one dash. -/
  isShort : Bool
  /-- What the same argument says after the option, an equals sign between them left out. -/
  rest? : Option (List Char)
  deriving DecidableEq, Repr

/-- What an argument is. -/
inductive Token where
  /-- The double dash, after which there are no options. -/
  | dashes
  | plain (argument : String)
  | option (spelled : Spelled)
  /-- It looks like an option but is none. -/
  | unknown (argument : String)
  deriving DecidableEq, Repr

/-- A text cut at its first equals sign; nothing if it has none. -/
def cutAtEquals? (cs : List Char) : Option (List Char × List Char) :=
  match cs.dropWhile (· != '=') with
  | _ :: value => some (cs.takeWhile (· != '='), value)
  | [] => none

/-- The spelling has one dash. -/
def isShortSpelling (s : String) : Bool := !(['-', '-'].isPrefixOf s.toList)

/-- All options that an argument with a dash may be short for, with their spellings. -/
def candidates (spellings : Spellings) (cs : List Char) : List (String × Spelled) :=
  if ['-', '-'].isPrefixOf cs then
    let (start, value?) := match cutAtEquals? cs with
      | some (start, value) => (start, some value)
      | none => (cs, none)
    (spellings.filter fun s ↦ start.isPrefixOf s.1.toList).map fun s ↦
      (s.1, ⟨s.2, isShortSpelling s.1, value?⟩)
  else
    (spellings.filter fun s ↦ s.1.toList = cs.take 2).map fun s ↦
      (s.1, ⟨s.2, true, some (cs.drop 2)⟩)

/-- See what an argument is. Several options that it may be short for are an error, told in words. -/
def Token.ofArgument (spellings : Spellings) (argument : String) : Except String Token :=
  let cs := argument.toList
  if cs.head? ≠ some '-' then .ok (.plain argument)
  else
    match spellings.lookup argument with
    | some o => .ok (.option ⟨o, isShortSpelling argument, none⟩)
    | none =>
      if cs.length = 1 then .ok (.plain argument)
      else
        let whole? := do
          let (start, value) ← cutAtEquals? cs
          let o ← spellings.lookup (.ofList start)
          return Spelled.mk o (isShortSpelling argument) (some value)
        match whole?, candidates spellings cs with
        | some s, _ => .ok (.option s)
        | none, [(_, s)] => .ok (.option s)
        | none, [] =>
          if Text.isNegativeNumber argument || cs.contains ' ' then .ok (.plain argument)
          else .ok (.unknown argument)
        | none, several =>
          .error ("ambiguous option: " ++ argument ++ " could match " ++
            ", ".intercalate (several.map Prod.fst))

/-- See what arguments are. After a double dash all are plain. -/
def tokens (spellings : Spellings) : List String → Except String (List Token)
  | [] => .ok []
  | a :: as =>
    if a = "--" then .ok (.dashes :: as.map .plain)
    else do return (← Token.ofArgument spellings a) :: (← tokens spellings as)

/-- What an option argument comes to: options with their values, and perhaps an option whose value is the
next argument. -/
structure Expansion where
  given : List (Opt × String) := []
  awaits? : Option Opt := none
  deriving DecidableEq, Repr

/-- What is said of a value that an option does not take. -/
def ignoredValue (o : Opt) (value : List Char) : String :=
  "argument " ++ o.name ++ ": ignored explicit argument " ++ Text.quoted (.ofList value)

/-- Take an option argument apart that says something after its first option. That is the value of an
option which takes one; after a short option without a value it is more short options. -/
def expand (o : Opt) (isShort : Bool) : (rest : List Char) → Except String Expansion
  | [] => if o.takesValue then .ok { given := [(o, "")] } else .error (ignoredValue o [])
  | c :: cs =>
    if o.takesValue then .ok { given := [(o, .ofList (c :: cs))] }
    else if isShort then
      match commandOptions.lookup (.ofList ['-', c]), cs with
      | none, _ => .error (ignoredValue o (c :: cs))
      | some next, [] =>
        .ok (if next.takesValue then { given := [(o, "")], awaits? := some next }
          else { given := [(o, ""), (next, "")] })
      | some next, d :: ds =>
        (expand next true (d :: ds)).map fun e ↦ { e with given := (o, "") :: e.given }
    else .error (ignoredValue o (c :: cs))

/-- Take a spelled option apart. -/
def Spelled.expand (s : Spelled) : Except String Expansion :=
  match s.rest? with
  | none =>
    .ok (if s.option.takesValue then { awaits? := some s.option } else { given := [(s.option, "")] })
  | some rest => CommandLine.expand s.option s.isShort rest

end ModuleBuild.CommandLine
