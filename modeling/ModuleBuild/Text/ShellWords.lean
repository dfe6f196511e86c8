import ModuleBuild.Text.Blank

/-!
# Shell words

Cutting a flag string into words the way a shell does. Apostrophes keep everything up to the next
one; double quotes keep all but a backslash before a double quote or a backslash; outside quotes a
backslash keeps the next character. Only space, tab, carriage return and line feed part words, and
quotes make a word even when there is nothing between them.

`scan` fails exactly when the text ends within quotes or after a backslash; `split` then falls back to
the blank-separated words of the text.
-/

namespace ModuleBuild.Text.ShellWords

/-- What the characters read so far leave open. -/
inductive Mode where
  /-- Between two words. -/
  | gap
  /-- Within a word and outside quotes. -/
  | word
  /-- Between apostrophes. -/
  | single
  /-- Between double quotes. -/
  | double
  /-- After a backslash outside quotes. -/
  | escape
  /-- After a backslash between double quotes. -/
  | doubleEscape
  deriving DecidableEq, Repr

/-- The character parts words. -/
def isSpace (c : Char) : Bool := c == ' ' || c == '\t' || c == '\r' || c == '\n'

/-- The words of a text that starts in the given mode, the word so far held in reverse. -/
def scan : Mode → List Char → List Char → Option (List (List Char))
  | .gap, _, [] => some []
  | .word, w, [] => some [w.reverse]
  | _, _, [] => none
  | .gap, _, c :: cs =>
    if isSpace c then scan .gap [] cs
    else if c = '\'' then scan .single [] cs
    else if c = '"' then scan .double [] cs
    else if c = '\\' then scan .escape [] cs
    else scan .word [c] cs
  | .word, w, c :: cs =>
    if isSpace c then (scan .gap [] cs).map (w.reverse :: ·)
    else if c = '\'' then scan .single w cs
    else if c = '"' then scan .double w cs
    else if c = '\\' then scan .escape w cs
    else scan .word (c :: w) cs
  | .single, w, c :: cs => if c = '\'' then scan .word w cs else scan .single (c :: w) cs
  | .double, w, c :: cs =>
    if c = '"' then scan .word w cs
    else if c = '\\' then scan .doubleEscape w cs
    else scan .double (c :: w) cs
  | .escape, w, c :: cs => scan .word (c :: w) cs
  | .doubleEscape, w, c :: cs =>
    if c = '"' || c = '\\' then scan .double (c :: w) cs else scan .double (c :: '\\' :: w) cs

/-- The shell words of a text, if its quotes and backslashes are complete. -/
def words? (s : String) : Option (List String) := (scan .gap [] s.toList).map (·.map .ofList)

/-- The words of a flag string: its shell words, or its blank-separated words if it leaves a quote or
a backslash open. -/
def split (s : String) : List String := (words? s).getD (words s)

end ModuleBuild.Text.ShellWords
