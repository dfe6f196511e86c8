import ModuleBuild.Listing.Names
import ModuleBuild.Table

/-!
# Rules in dependency listings

Compilers leave one rule for an object: the object, a colon, and the files it was made from. To it are
added phony rules, one for each line of files and without prerequisites, so that a header that has been
deleted makes the object stale and is no error. `prerequisites` reads both kinds of rules back.
-/

namespace ModuleBuild.Listing

/-- The part of a line behind its first colon and the spaces after that; the whole line if it has no
colon. -/
def dropTarget (line : List Char) : List Char :=
  match line.dropWhile (· != ':') with
  | _ :: tail => tail.dropWhile (· == ' ')
  | [] => line

/-- A line without the backslash that continues it on the next line, and the spaces before that. -/
def dropContinuation (line : List Char) : List Char :=
  match line.reverse with
  | '\\' :: rest => (rest.dropWhile (· == ' ')).reverse
  | _ => line

/-- The phony rule for the files in a line of a listing; nothing if there are none. -/
def phonyRule (line : List Char) : List Char :=
  match Text.trimEnd (dropContinuation (dropTarget (dropComment line))) with
  | [] => []
  | files => files ++ [' ', ':', '\n']

/-- The phony rules for the files in a listing. -/
def phonyRules (text : String) : String :=
  .ofList ((Text.splitLines text.toList).flatMap phonyRule)

/-- A text with its continued lines joined: a backslash and line feed become a space. -/
def joinContinued : List Char → List Char
  | '\\' :: '\n' :: cs => ' ' :: joinContinued cs
  | c :: cs => c :: joinContinued cs
  | [] => []

/-- The two sides of a line of rules: targets, and the files they depend on. A rule without
prerequisites names files only. -/
def sides (line : List Char) : List (List Char) × List (List Char) :=
  match line.dropWhile (· != ':') with
  | [] => ([], [])
  | _ :: tail =>
    let head := line.takeWhile (· != ':')
    if (Text.trim tail).isEmpty then ([], names head) else (names head, names tail)

/-- The targets and the files of each rule of a text, in order. -/
def rules (text : String) : List (List (List Char) × List (List Char)) :=
  (Text.splitLines (joinContinued text.toList)).map fun l ↦ sides (dropComment l)

/-- The files that the rules of a text name, each once and in the order in which they come first. What
is the target of a rule is left out. -/
def prerequisites (text : String) : List Path :=
  let rs := rules text
  let targets := rs.flatMap Prod.fst
  ((appendNew [] (rs.flatMap Prod.snd)).filter (· ∉ targets)).map fun p ↦ .ofString (.ofList p)

end ModuleBuild.Listing
