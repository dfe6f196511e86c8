import ModuleBuild.Text.Blank
import ModuleBuild.Text.Lines
import ModuleBuild.Path.Basic

/-!
# Names in dependency listings

A listing is text in the form of make rules: targets, a colon, and what they depend on. A backslash
before a blank makes the blank part of a name, and a doubled dollar sign is one dollar sign.
-/

namespace ModuleBuild.Listing

/-- A line without its comment. -/
def dropComment (line : List Char) : List Char := line.takeWhile (· != '#')

/-- Cut a text at its blanks. `previous` is the character before; a blank after a backslash is part of
its piece, and all blanks after a blank that parts pieces belong to it. -/
def pieces (previous : Char) : (inGap : Bool) → List Char → List (List Char)
  | _, [] => [[]]
  | inGap, c :: cs =>
    if Text.isBlank c && (inGap || previous != '\\') then
      if inGap then pieces c true cs else [] :: pieces c true cs
    else
      match pieces c false cs with
      | p :: ps => (c :: p) :: ps
      | [] => [[c]]

/-- The name that a piece writes. -/
def unescape : List Char → List Char
  | '\\' :: ' ' :: cs => ' ' :: unescape cs
  | c :: cs => c :: unescape cs
  | [] => []

/-- Doubled dollar signs made single. -/
def undouble : List Char → List Char
  | '$' :: '$' :: cs => '$' :: undouble cs
  | c :: cs => c :: undouble cs
  | [] => []

/-- The names in one side of a rule. -/
def names (text : List Char) : List (List Char) :=
  ((pieces '\x00' false (Text.trim text)).filter (!·.isEmpty)).map fun p ↦ undouble (unescape p)

end ModuleBuild.Listing
