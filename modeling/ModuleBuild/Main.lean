import ModuleBuild.CommandLine.Session

/-!
# The program

The outer layer: the project is read from disk into a file tree, the program is run on it, and what it
has changed is carried out. Nothing is decided here. No commands are started from here, so every tool
counts as missing, and a build succeeds where nothing has to be made.
-/

namespace ModuleBuild.Disk

/-- The path of a location, from the root of the file tree. -/
def pathText (l : Location) : String := toString (⟨.root, l.reverse⟩ : Path)

/-- Read what an entry of a directory leads to, through at most `depth` directories in each other. Links
are passed over. -/
def read (t : FileTree) (directory : Location) (e : IO.FS.DirEntry) : (depth : Nat) → IO FileTree
  | 0 => return t
  | depth + 1 => do
    let l := directory.follow (.ofString e.fileName)
    let information ← e.path.symlinkMetadata
    let time := information.modified
    let changed := Timestamp.ofNanoseconds (time.sec * Timestamp.second + time.nsec.toNat)
    match information.type with
    | .file => return t.put l (.file (← IO.FS.readBinFile e.path) changed)
    | .dir =>
      let entries ← e.path.readDir
      entries.foldlM (fun t e ↦ read t l e depth) (t.put l (.directory changed))
    | _ => return t

/-- The tree that holds nothing but the way to a directory, which is the current one. -/
def wayTo (directory : Path) : FileTree :=
  let t : FileTree := { current := [], clock := .ofSeconds 0, nodes := .empty }
  { (t.ensureDirectory directory).1 with current := Location.follow [] directory }

/-- Carry out on disk what has changed from one tree to another. -/
def carryOut (before after : FileTree) : IO Unit := do
  for (l, e) in after.nodes.entries do
    if before.entry? l ≠ some e then
      match e with
      | .file bytes _ => IO.FS.writeBinFile (pathText l) bytes
      | .directory _ => IO.FS.createDirAll (pathText l)
  for (l, _) in before.nodes.entries do
    if ( after.entry? l).isNone then IO.FS.removeFile (pathText l)

/-- The variables of the environment that settings are taken from, as far as they are set. -/
def environment : IO (List (String × String)) :=
  Settings.variableNames.filterMapM fun name ↦ do
    return (← IO.getEnv name).map fun value ↦ (name, value)

end ModuleBuild.Disk

open ModuleBuild in
/-- Run the program in the current directory. -/
def main (arguments : List String) : IO UInt32 := do
  let here ← IO.currentDir
  let directory := Path.ofString here.toString
  let project := (CommandLine.Request.ofList arguments).projectDirectory directory
  let e : IO.FS.DirEntry := { root := here, fileName := toString project }
  let mut tree := Disk.wayTo directory
  if ← e.path.isDir then
    tree ← Disk.read (tree.ensureDirectory project).1 tree.current e FileTree.maxPath
  let outcome := CommandLine.run arguments { tree, directory, environment := ← Disk.environment }
  Disk.carryOut tree outcome.tree
  IO.print outcome.output
  IO.eprint outcome.errors
  match outcome.exit with
  | .status code => return code.toUInt32
  | .interrupted => return CommandLine.interruptedStatus.toUInt32
  | .crashed failure =>
    IO.eprintln (failure.kind ++ ": " ++ failure.message)
    return CommandLine.failureStatus.toUInt32
