import ModuleBuild.Ini.Document
import ModuleBuild.Text.Lowercase
import ModuleBuild.Text.Quoted

/-!
# Reading INI text

The text is read line by line. A line is a comment, blank, a section header, an option with its value,
or, when it is indented deeper than the option above it, one more line of that option's value. Comments
change nothing at all; blank lines belong to the value above them.

A section or option that is given twice and text before the first section end the reading at once.
Lines that are nothing of the above are collected and reported together at the end.
-/

namespace ModuleBuild.Ini

/-- Why a text is no INI document. -/
inductive Fault where
  /-- Something stands before the first section. -/
  | noSection (number : Nat) (line : String)
  | duplicateSection (number : Nat) (name : String)
  | duplicateOption (number : Nat) (option name : String)
  /-- Lines that say nothing. -/
  | badLines (lines : List (Nat × String))
  deriving DecidableEq, Repr

/-- The number of a line, at least two places wide. -/
def lineNumber (n : Nat) : String :=
  let s := toString n
  "[line " ++ (if s.length < 2 then " " ++ s else s) ++ "]"

/-- A fault in words; `source` names the text. -/
def Fault.message (source : String) : Fault → String
  | .noSection n line =>
    "File contains no section headers.\nfile: " ++ Text.quoted source ++ ", line: " ++ toString n ++
      "\n" ++ Text.quoted line
  | .duplicateSection n name =>
    "While reading from " ++ Text.quoted source ++ " " ++ lineNumber n ++ ": section " ++
      Text.quoted name ++ " already exists"
  | .duplicateOption n option name =>
    "While reading from " ++ Text.quoted source ++ " " ++ lineNumber n ++ ": option " ++
      Text.quoted option ++ " in section " ++ Text.quoted name ++ " already exists"
  | .badLines ls =>
    "Source contains parsing errors: " ++ Text.quoted source ++
      "".intercalate (ls.map fun l ↦ "\n\t" ++ lineNumber l.1 ++ ": " ++ Text.quoted l.2)

/-- What a line that is neither blank nor a comment says, its value without blanks at the ends. -/
inductive Statement where
  | header (name : String)
  | option (name value : String)
  | nothing
  deriving DecidableEq, Repr

/-- The character parts an option from its value. -/
def isDelimiter (c : Char) : Bool := c == '=' || c == ':'

/-- The name in a section header: what stands between an opening bracket and the last closing one, if
that is anything. -/
def headerName? : List Char → Option (List Char)
  | '[' :: cs =>
    match (cs.reverse.dropWhile (· != ']')).drop 1 with
    | [] => none
    | name => some name.reverse
  | _ => none

/-- What the text of a line says. -/
def Statement.ofText (cs : List Char) : Statement :=
  match headerName? cs with
  | some name => .header (.ofList name)
  | none =>
    match cs.dropWhile (!isDelimiter ·) with
    | _ :: value =>
      .option (.ofList (Text.trimEnd (cs.takeWhile (!isDelimiter ·)))) (.ofList (Text.trim value))
    | [] => .nothing

/-- A line as the reader sees it. -/
inductive Line where
  | comment
  | blank
  /-- Text behind so many blanks. -/
  | text (indent : Nat) (content : List Char)
  deriving DecidableEq, Repr

/-- The character opens a comment when it comes first in a line. -/
def isCommentMark (c : Char) : Bool := c == '#' || c == ';'

/-- See what a line is. -/
def Line.ofChars (cs : List Char) : Line :=
  match Text.trim cs with
  | [] => .blank
  | c :: content =>
    if isCommentMark c then .comment else .text (cs.takeWhile Text.isBlank).length (c :: content)

/-- What has been read, and what the next line may continue. -/
structure State where
  document : Document := {}
  /-- The section that options go to. -/
  current? : Option String := none
  /-- The option that an indented line continues. -/
  option? : Option String := none
  /-- The indentation of the last line that continued nothing. -/
  indent : Nat := 0
  /-- The lines that say nothing, the last of them first. -/
  badLines : List (Nat × String) := []

namespace State

/-- Add a line to the value of the open option, if there is one. -/
def continueValue (st : State) (value : String) : State :=
  match st.current?, st.option? with
  | some name, some option =>
    let options := st.document.options name
    let ls := (options.find? option).getD []
    { st with document := st.document.setOptions name (options.insert option (value :: ls)) }
  | _, _ => st

/-- An option is open, so that an indented line continues its value. -/
def isOpen (st : State) : Bool := st.current?.isSome && st.option?.isSome

/-- Note a line that says nothing. -/
def note (st : State) (number : Nat) (line : List Char) : State :=
  { st with badLines := (number, .ofList line) :: st.badLines }

/-- Open a section. -/
def openSection (st : State) (number : Nat) (name : String) : Except Fault State :=
  if name = defaultSection then
    .ok { st with current? := some name, option? := none }
  else if st.document.hasSection name then .error (.duplicateSection number name)
  else
    .ok { st with
      document := st.document.setOptions name .empty, current? := some name, option? := none }

/-- Give an option its first line. An option without a name is noted, and nothing continues it. -/
def openOption (st : State) (number : Nat) (line : List Char) (name option value : String) :
    Except Fault State :=
  let st := if option = "" then st.note number line else st
  let key := Text.lowercase option
  let options := st.document.options name
  if options.contains key then .error (.duplicateOption number key name)
  else
    .ok { st with
      document := st.document.setOptions name (options.insert key [value])
      option? := if key = "" then none else some key }

/-- Read one line. -/
def read (st : State) (number : Nat) (line : List Char) : Except Fault State :=
  match Line.ofChars line with
  | .comment => .ok st
  | .blank => .ok (st.continueValue "")
  | .text indent content =>
    if st.isOpen && st.indent < indent then .ok (st.continueValue (.ofList content))
    else
      let st := { st with indent }
      match Statement.ofText content, st.current? with
      | .header name, _ => st.openSection number name
      | _, none => .error (.noSection number (.ofList line))
      | .option option value, some name => st.openOption number line name option value
      | .nothing, some _ => .ok (st.note number line)

/-- Read lines, the first of which has the given number. -/
def readAll (st : State) (number : Nat) : List (List Char) → Except Fault State
  | [] => .ok st
  | l :: ls => do (← st.read number l).readAll (number + 1) ls

/-- The document that has been read, unless some lines said nothing. -/
def finish (st : State) : Except Fault Document :=
  if st.badLines.isEmpty then .ok st.document else .error (.badLines st.badLines.reverse)

end State

/-- The document that the lines of a text make. -/
def Document.ofLines (ls : List (List Char)) : Except Fault Document := do
  (← State.readAll {} 1 ls).finish

end ModuleBuild.Ini
