import ModuleBuild.Settings.Basic

/-!
# Overrides

Overrides name the settings they replace. Any other name is refused if it brings a value, and one name is
refused in any case.
-/

namespace ModuleBuild

/-- Why overrides are refused. -/
inductive OverrideError where
  /-- No setting has the name. -/
  | unknown (name : String)
  /-- The name cannot be that of an override. -/
  | reserved (name : String)
  deriving DecidableEq, Repr

/-- An override error in words. -/
def OverrideError.message : OverrideError → String
  | .unknown name => "ProjectConfig.__init__() got an unexpected keyword argument '" ++ name ++ "'"
  | .reserved name =>
    "ProjectConfig.with_overrides() got multiple values for argument '" ++ name ++ "'"

/-- Names of settings with the values to give them; no value leaves a setting as it is. -/
abbrev Overrides := List (String × Option SettingValue)

namespace PartialSettings

/-- Add a setting to a layer, if there is a setting of that name. -/
def set? (s : PartialSettings) (name : String) (value : SettingValue) : Option PartialSettings :=
  match name with
  | "cc" => some { s with cc := value }
  | "cxx" => some { s with cxx := value }
  | "ar" => some { s with ar := value }
  | "lnk" => some { s with lnk := value }
  | "cflags" => some { s with cflags := value }
  | "cxxflags" => some { s with cxxflags := value }
  | "ldflags" => some { s with ldflags := value }
  | "defines" => some { s with defines := value }
  | "include_dirs" => some { s with includeDirs := value }
  | "build_dir" => some { s with buildDir := value.asText }
  | "target_dir" => some { s with targetDir := value.asText }
  | _ => none

/-- The name that no override can have. -/
def reservedName : String := "self"

/-- The layer that overrides make. The first name at fault is reported. -/
def ofOverrides (overrides : Overrides) : Except OverrideError PartialSettings :=
  if overrides.any (·.1 = reservedName) then .error (.reserved reservedName)
  else
    overrides.foldlM (fun s (name, value?) ↦
      match value? with
      | none => .ok s
      | some value =>
        match s.set? name value with
        | some s => .ok s
        | none => .error (.unknown name)) {}

end PartialSettings

/-- The settings with overrides laid over them. -/
def Settings.override (s : Settings) (overrides : Overrides) : Except OverrideError Settings :=
  (PartialSettings.ofOverrides overrides).map s.apply

end ModuleBuild
