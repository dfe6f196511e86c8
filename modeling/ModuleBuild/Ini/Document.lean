import ModuleBuild.Table
import ModuleBuild.Text.Blank

/-!
# INI documents

A document has sections, and a section has options with values. Options of the default section are
visible in every other section.
-/

namespace ModuleBuild.Ini

/-- The lines of the values of a section's options, the last line of a value first. -/
abbrev Options := Table String (List String)

/-- What an INI text says. -/
structure Document where
  defaults : Options := .empty
  sections : Table String Options := .empty

/-- The name of the section whose options every section has. -/
def defaultSection : String := "DEFAULT"

/-- A value of several lines, the last of them first: the lines put together, without blanks at the
end. -/
def joinLines (ls : List String) : String :=
  .ofList (Text.trimEnd ("\n".intercalate ls.reverse).toList)

namespace Document

/-- The document has a section of that name, other than the default section. -/
def hasSection (d : Document) (name : String) : Bool := d.sections.contains name

/-- The value of an option in a section. -/
def value? (d : Document) (name option : String) : Option String := do
  let options ← d.sections.find? name
  let ls ← options.find? option <|> d.defaults.find? option
  return joinLines ls

/-- The options of a section, by the name that selects it. -/
def options (d : Document) (name : String) : Options :=
  if name = defaultSection then d.defaults else (d.sections.find? name).getD .empty

/-- The document with the options of a section replaced. -/
def setOptions (d : Document) (name : String) (options : Options) : Document :=
  if name = defaultSection then { d with defaults := options }
  else { d with sections := d.sections.insert name options }

end Document

end ModuleBuild.Ini
