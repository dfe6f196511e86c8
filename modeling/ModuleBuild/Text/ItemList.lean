import ModuleBuild.Text.Blank

/-!
# Lists of items

A list value of a descriptor names its items with blanks and commas between them, in any mix.
-/

namespace ModuleBuild.Text.ItemList

/-- The character parts one item from the next. -/
def isSeparator (c : Char) : Bool := c == ',' || isBlank c

/-- The items of a list value: its maximal runs of characters that are no separators. -/
def items (s : String) : List String := (runs isSeparator s.toList).map .ofList

end ModuleBuild.Text.ItemList
