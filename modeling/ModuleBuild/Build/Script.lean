import ModuleBuild.Build.Toolchain
import ModuleBuild.FileTree.Change
import ModuleBuild.Path.Suffix

/-!
# Scripted toolchains

A toolchain for rehearsals. It writes the file that a command names as its output, and for a compile the
dependency listing that its script gives; the script also says which commands fail.
-/

namespace ModuleBuild

/-- What a rehearsed toolchain does. -/
structure ToolScript where
  /-- Programs that cannot be started. -/
  missing : List String := []
  /-- Arguments at which the user breaks off. -/
  interrupt : List String := []
  /-- Arguments at which a command fails. -/
  fail : List String := []
  /-- Arguments at which a command warns. -/
  warn : List String := []
  /-- The listings of sources; a source may have none. -/
  listings : List (String × Option String) := []
  /-- The listing of every other source. -/
  defaultListing : Option String := none
  /-- The time at which files are written. -/
  now : Timestamp := .ofSeconds 0

namespace ToolScript

/-- A text with each occurrence of `pattern` replaced by `value`. -/
def replaceAll (pattern value : List Char) (text : List Char) : List Char :=
  go 0 text
where
  /-- Replace in what is left after `skip` characters of an occurrence. -/
  go : (skip : Nat) → List Char → List Char
  | _, [] => []
  | skip + 1, _ :: cs => go skip cs
  | 0, c :: cs =>
    if pattern.isPrefixOf (c :: cs) then value ++ go (pattern.length - 1) cs else c :: go 0 cs

/-- The listing that a compile of `source` into `output` leaves. -/
def listing? (s : ToolScript) (output source : String) : Option String :=
  let text? := (s.listings.lookup source).getD s.defaultListing
  text?.map fun text ↦
    let withOutput := replaceAll ['\x7b', 'o', 'u', 't', '\x7d'] output.toList text.toList
    .ofList (replaceAll ['\x7b', 's', 'r', 'c', '\x7d'] source.toList withOutput)

/-- The files that a command which succeeds writes, with their texts: its output and, for a compile, the
listing. -/
def products (s : ToolScript) (command : List String) : List (Path × String) :=
  match command with
  | _ :: option :: output :: rest =>
    let file := Path.ofString output
    let listing? := do
      guard (option = "-o" && ["-c", "-MD"].isPrefixOf rest)
      return (← file.withSuffix? .listing, ← s.listing? output (command.getLastD ""))
    (file, "built") :: listing?.toList
  | _ => []

/-- Write files. Those before one that cannot be written stay. A relative path is looked for from the
current directory, wherever the command is started. -/
def writeAll (s : ToolScript) (t : FileTree) : List (Path × String) → FileTree × Except FileError Unit
  | [] => (t, .ok ())
  | (p, text) :: files =>
    match t.write p text.toUTF8 s.now with
    | .error e => (t, .error e)
    | .ok t => s.writeAll t files

/-- The toolchain that follows a script. -/
def toolchain (s : ToolScript) : Toolchain := fun t _ command ↦
  let program := command.headD ""
  let names (arguments : List String) := command.any arguments.contains
  if s.missing.contains program then
    (t, .cannotStart (systemErrorText 2 "No such file or directory" program))
  else if names s.interrupt then (t, .interrupted)
  else if names s.fail then (t, .exited 1 "out!" "boom")
  else
    match s.writeAll t (s.products command) with
    | (t, .error e) => (t, .cannotStart e.message)
    | (t, .ok ()) => (t, .exited 0 "" (if names s.warn then "careful" else ""))

end ToolScript

end ModuleBuild
