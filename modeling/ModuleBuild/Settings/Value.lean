import ModuleBuild.Text.Quoted

/-!
# Values of settings

A setting keeps the value that it was given, a text or a list of texts, also where it is meant to hold the
other of the two. `asText` and `asItems` read a value of either kind.
-/

namespace ModuleBuild

/-- The value of a setting. -/
inductive SettingValue where
  | text (value : String)
  | items (values : List String)
  deriving DecidableEq, Repr

namespace SettingValue

/-- The value where a text is wanted; a list is shown with its items quoted. -/
def asText : SettingValue → String
  | .text s => s
  | .items xs => "[" ++ ", ".intercalate (xs.map Text.quoted) ++ "]"

/-- The value where a list is wanted; a text is the list of its characters. -/
def asItems : SettingValue → List String
  | .text s => s.toList.map String.singleton
  | .items xs => xs

/-- The text or list holds nothing. -/
def isEmpty : SettingValue → Bool
  | .text s => s = ""
  | .items xs => xs.isEmpty

@[simp] theorem asText_text (s : String) : (text s).asText = s := rfl

@[simp] theorem asItems_items (xs : List String) : (items xs).asItems = xs := rfl

end SettingValue

end ModuleBuild
