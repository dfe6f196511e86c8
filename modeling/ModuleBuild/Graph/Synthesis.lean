import ModuleBuild.Failure
import ModuleBuild.Graph.Basic
import ModuleBuild.Log

/-!
# Synthesis of commands

The commands of a build graph. One linker is chosen for the whole project; archives are made by the
archiver; each source is compiled by the rule for its suffix.
-/

namespace ModuleBuild

namespace Settings

/-- The linker of the project: the one that is set, else the C++ compiler if there is C++, else the C
compiler. An empty setting counts as none. -/
def linker (s : Settings) (hasCxx : Bool) : SettingValue :=
  match s.lnk with
  | some l => if l.isEmpty then (if hasCxx then s.cxx else s.cc) else l
  | none => if hasCxx then s.cxx else s.cc

/-- The compiler of a language. -/
def compiler (s : Settings) : Language → SettingValue
  | .c => s.cc
  | .cxx => s.cxx

/-- The project's flags for a language. -/
def flags (s : Settings) : Language → List String
  | .c => s.cflags.asItems
  | .cxx => s.cxxflags.asItems

/-- The compile rules, one for each suffix. -/
def compileRules (s : Settings) : List CompileRule :=
  Language.suffixes.map fun (suffix, language) ↦ ⟨suffix, language, s.compiler language⟩

/-- The command that compiles an object: the module's flags stand before the project's, but the
project's include directories and definitions before the module's. -/
def compileCommand (s : Settings) (r : CompileRule) (o : ObjectRecord) : Invocation where
  program := r.compiler
  arguments :=
    ["-o", toString o.path, "-c", "-MD"] ++ o.flags ++ s.flags r.language ++ s.includeFlags ++
      o.includeFlags ++ s.defineFlags ++ o.defines ++ [toString o.source]

/-- The action that makes an archive. -/
def archiveAction (s : Settings) (t : Target) : TargetAction where
  target := t.path
  kind := .archive
  command := ⟨s.ar, ["r", toString t.path] ++ t.objects.map toString⟩
  objects := t.objects
  prereqs := t.prereqs

/-- The action that links an executable. -/
def linkAction (s : Settings) (linker : SettingValue) (t : Target) : TargetAction where
  target := t.path
  kind := .executable
  command :=
    ⟨linker, ["-o", toString t.path] ++ t.ldflags ++ s.ldflags.asItems ++
      t.objects.map toString ++ t.libraryFlags⟩
  objects := t.objects
  prereqs := t.prereqs

/-- The action that makes a target. -/
def targetAction (s : Settings) (linker : SettingValue) (t : Target) : TargetAction :=
  match t.kind with
  | .archive => s.archiveAction t
  | .executable => s.linkAction linker t

/-- The action that compiles an object. -/
def compileAction (s : Settings) (o : ObjectRecord) : Except Failure CompileAction :=
  match s.compileRules.find? fun r ↦ r.suffix = o.source.suffix with
  | some r => .ok ⟨o, s.compileCommand r o⟩
  | none => .error (.noCompileRule o.source.suffix)

end Settings

namespace Graph

/-- The build graph of targets and objects, without headers. -/
def synthesize (s : Settings) (targets : List Target) (objects : Table Path ObjectRecord)
    (hasCxx : Bool) : Except Failure Graph := do
  let linker := s.linker hasCxx
  let actions ← objects.entries.mapM fun (p, o) ↦ return (p, ← s.compileAction o)
  return {
    linker
    targets := .ofList (targets.map fun t ↦ (t.path, t))
    objects
    compileRules := s.compileRules
    compileActions := ⟨actions⟩
    targetActions := .ofList (targets.map fun t ↦ (t.path, s.targetAction linker t)) }

/-- What is said of a synthesized graph. -/
def synthesisRecord (g : Graph) : Log.Record where
  level := .debug
  text :=
    "Synthesized " ++ toString g.targetActions.entries.length ++ " target actions and " ++
      toString g.compileActions.entries.length ++ " compile actions (linker: " ++
        g.linker.asText ++ ")"

end Graph

end ModuleBuild
