import ModuleBuild.CommandLine.Options
import ModuleBuild.Settings.Value

/-!
# Arguments

What the arguments of the program ask for: a command with its options and the directory of a project, the
version, help, or nothing that makes sense.
-/

namespace ModuleBuild.CommandLine

/-- What is done with a project. -/
inductive Command where
  | all
  | clean
  | graph
  deriving DecidableEq, Repr

namespace Command

/-- The name of a command. -/
def name : Command → String
  | .all => "all"
  | .clean => "clean"
  | .graph => "graph"

/-- The command of a given name. -/
def ofName? (s : String) : Option Command :=
  [Command.all, .clean, .graph].find? fun c ↦ c.name = s

end Command

/-- The name of the program. -/
def programName : String := "modgraph"

/-- The version of the program. -/
def programVersion : String := "0.1.0"

/-- What the arguments of a command say. -/
structure Arguments where
  directory? : Option String := none
  root? : Option SettingValue := none
  buildDir? : Option SettingValue := none
  targetDir? : Option SettingValue := none
  cc? : Option SettingValue := none
  cxx? : Option SettingValue := none
  ar? : Option SettingValue := none
  lnk? : Option SettingValue := none
  jobs? : Option Int := none
  noProgress : Bool := false
  verbose : Bool := false
  /-- Arguments that have no meaning. -/
  extras : List String := []
  deriving DecidableEq, Repr

/-- Reading arguments ends early. -/
inductive Stop where
  | help
  /-- The arguments make no sense. -/
  | misuse (message : String)
  deriving DecidableEq, Repr

/-- What the text of a value stands for. A double dash is no value, also behind an option: what is left
is a list of nothing. -/
def valueOfText (text : String) : SettingValue :=
  if text = "--" then .items [] else .text text

namespace Arguments

/-- Take in an option with the text of its value, which is empty for an option that takes none. A later
value replaces an earlier one. -/
def give (a : Arguments) (o : Opt) (text : String) : Except Stop Arguments :=
  let value := valueOfText text
  match o with
  | .help => .error .help
  | .file => .ok { a with root? := value }
  | .buildDir => .ok { a with buildDir? := value }
  | .targetDir => .ok { a with targetDir? := value }
  | .cc => .ok { a with cc? := value }
  | .cxx => .ok { a with cxx? := value }
  | .ar => .ok { a with ar? := value }
  | .lnk => .ok { a with lnk? := value }
  | .jobs =>
    match value with
    | .items _ => .ok { a with jobs? := none }
    | .text text =>
      match Text.integer? text with
      | some n => .ok { a with jobs? := n }
      | none =>
        .error (.misuse ("argument " ++ o.name ++ ": invalid int value: " ++ Text.quoted text))
  | .noProgress => .ok { a with noProgress := true }
  | .verbose => .ok { a with verbose := true }
  | .version => .ok a

/-- Take in several options with their values. -/
def giveAll (a : Arguments) : List (Opt × String) → Except Stop Arguments
  | [] => .ok a
  | (o, value) :: rest => do (← a.give o value).giveAll rest

/-- Note arguments that have no meaning. -/
def note (a : Arguments) (arguments : List String) : Arguments :=
  { a with extras := a.extras ++ arguments }

/-- An argument as it was written, where it is plain. -/
def plainText : Token → List String
  | .dashes => ["--"]
  | .plain s => [s]
  | _ => []

/-- Read tokens. The first plain one is the directory, if there is none yet; a double dash next to it
belongs to it. -/
def read (a : Arguments) (hasDirectory : Bool) : List Token → Except Stop Arguments
  | [] => .ok a
  | .plain s :: rest =>
    if hasDirectory then (a.note [s]).read true rest
    else
      match rest with
      | .dashes :: rest => { a with directory? := some s }.read true rest
      | rest => { a with directory? := some s }.read true rest
  | .dashes :: rest =>
    if hasDirectory then .ok (a.note ("--" :: rest.flatMap plainText))
    else
      match rest with
      | .plain s :: rest => { a with directory? := some s }.read true rest
      | rest => a.read true rest
  | .unknown s :: rest => (a.note [s]).read hasDirectory rest
  | .option spelled :: rest =>
    match spelled.expand with
    | .error message => .error (.misuse message)
    | .ok e =>
      match e.awaits?, rest with
      | none, rest => do
        let a ← a.giveAll e.given
        a.read hasDirectory rest
      | some o, .plain value :: rest => do
        let a ← a.giveAll (e.given ++ [(o, value)])
        a.read hasDirectory rest
      | some o, _ => .error (.misuse ("argument " ++ o.name ++ ": expected one argument"))

/-- What the arguments after a command say. -/
def ofList (arguments : List String) : Except Stop Arguments := do
  let tokens ← (tokens commandOptions arguments).mapError .misuse
  ({} : Arguments).read false tokens

end Arguments

/-- What the program is asked for. -/
inductive Request where
  | run (command : Command) (arguments : Arguments)
  | help
  | version
  /-- Nothing that makes sense; `program` is the name under which this is said. -/
  | misuse (program message : String)
  deriving DecidableEq, Repr

namespace Request

/-- The arguments after a command, as a request. -/
def ofCommand (command : Command) (arguments : List String) : Request :=
  match Arguments.ofList arguments with
  | .error .help => .help
  | .error (.misuse message) => .misuse (programName ++ " " ++ command.name) message
  | .ok a =>
    if a.extras.isEmpty then .run command a
    else .misuse programName ("unrecognized arguments: " ++ " ".intercalate a.extras)

/-- What the arguments of the program ask for. Without a command, `all` is meant. -/
def ofList (arguments : List String) : Request :=
  let (first, rest) := match arguments with
    | [] => ("all", [])
    | a :: as =>
      if (Command.ofName? a).isSome || ["-h", "--help", "--version"].contains a then (a, as)
      else ("all", a :: as)
  match tokens programOptions (first :: rest), Command.ofName? first with
  | .error message, _ => .misuse programName message
  | .ok _, some command => ofCommand command rest
  | .ok _, none => if first = "--version" then .version else .help

end Request

end ModuleBuild.CommandLine
