import ModuleBuild.FileTree.Location
import ModuleBuild.FileTree.Timestamp
import ModuleBuild.Table
import ModuleBuild.Text.Quoted

/-!
# File trees

A file tree holds files and directories at locations, and knows the directory from which relative paths
start. A path is looked up the way an operating system does it: every segment but the last must lead to
a directory, also before a double dot, and names and paths have a greatest length.
-/

namespace ModuleBuild

/-- What stands at a location. -/
inductive Entry where
  /-- A file: its bytes and the time of its last change. -/
  | file (bytes : ByteArray) (modified : Timestamp)
  /-- A directory and the time at which it was made. -/
  | directory (modified : Timestamp)

/-- Entries are compared by their kinds, their bytes and their times. -/
instance : DecidableEq Entry
  | .file a s, .file b t => decidable_of_iff (a.data = b.data ∧ s = t) (by cases a; cases b; simp)
  | .directory s, .directory t => decidable_of_iff (s = t) (by simp)
  | .file .., .directory _ => isFalse (by simp)
  | .directory _, .file .. => isFalse (by simp)

/-- The time at which an entry was last changed. -/
def Entry.modified : Entry → Timestamp
  | .file _ t => t
  | .directory t => t

/-- The entry is a file. -/
def Entry.isFile : Entry → Bool
  | .file .. => true
  | .directory _ => false

/-- Why the operating system refuses a path. -/
inductive Refusal where
  | notFound
  | alreadyExists
  | notDirectory
  | isDirectory
  | nameTooLong
  /-- The path holds a null character, which no name can. -/
  | nullCharacter
  deriving DecidableEq, Repr

/-- A refused path. -/
structure FileError where
  refusal : Refusal
  path : Path
  deriving DecidableEq, Repr

/-- The kind of a file error, as error reports name it. -/
def FileError.kind (e : FileError) : String :=
  match e.refusal with
  | .notFound => "FileNotFoundError"
  | .alreadyExists => "FileExistsError"
  | .notDirectory => "NotADirectoryError"
  | .isDirectory => "IsADirectoryError"
  | .nameTooLong => "OSError"
  | .nullCharacter => "ValueError"

/-- A system error in words: its number, what it means, and the name it is about. -/
def systemErrorText (number : Nat) (meaning name : String) : String :=
  "[Errno " ++ toString number ++ "] " ++ meaning ++ ": " ++ Text.quoted name

/-- A file error in words. -/
def FileError.message (e : FileError) : String :=
  let name := toString e.path
  match e.refusal with
  | .notFound => systemErrorText 2 "No such file or directory" name
  | .alreadyExists => systemErrorText 17 "File exists" name
  | .notDirectory => systemErrorText 20 "Not a directory" name
  | .isDirectory => systemErrorText 21 "Is a directory" name
  | .nameTooLong => systemErrorText 36 "File name too long" name
  | .nullCharacter => "embedded null byte"

/-- Files and directories, the directory in which relative paths start, and the time of the clock that
stamps what the program itself writes. -/
structure FileTree where
  current : Location
  clock : Timestamp
  nodes : Table Location Entry

namespace FileTree

/-- The greatest length of a name, in bytes. -/
def maxName : Nat := 255

/-- The length from which on a path is refused, in bytes. -/
def maxPath : Nat := 4096

/-- What stands at a location. The root is always a directory. -/
def entry? (t : FileTree) (l : Location) : Option Entry :=
  if l = [] then some (.directory t.clock) else t.nodes.find? l

/-- The tree with an entry put at a location. -/
def put (t : FileTree) (l : Location) (e : Entry) : FileTree :=
  { t with nodes := t.nodes.insert l e }

/-- The tree without the entry at a location. -/
def erase (t : FileTree) (l : Location) : FileTree :=
  { t with nodes := ⟨t.nodes.entries.filter fun n ↦ n.1 ≠ l⟩ }

/-- Follow a segment from a location, which must be a directory. -/
def enter (t : FileTree) (l : Location) (s : Segment) : Except Refusal Location :=
  match t.entry? l with
  | none => .error .notFound
  | some (.file ..) => .error .notDirectory
  | some (.directory _) =>
    if s = .up then .ok l.tail
    else if s.text.utf8ByteSize ≤ maxName then .ok (s :: l)
    else .error .nameTooLong

/-- Follow segments one after another. -/
def enterAll (t : FileTree) : Location → List Segment → Except Refusal Location
  | l, [] => .ok l
  | l, s :: ss => do t.enterAll (← t.enter l s) ss

/-- The location that a path names; something need not stand there. -/
def locate (t : FileTree) (p : Path) : Except Refusal Location :=
  let text := toString p
  if text.toList.contains '\x00' then .error .nullCharacter
  else if maxPath ≤ text.utf8ByteSize then .error .nameTooLong
  else t.enterAll (if p.isAbsolute then [] else t.current) p.segments

/-- What stands at a path. -/
def stat (t : FileTree) (p : Path) : Except Refusal Entry := do
  match t.entry? (← t.locate p) with
  | some e => .ok e
  | none => .error .notFound

/-- What stands at a path, if anything. That nothing can stand there is no error, but a name that is
too long is one. -/
def probe (t : FileTree) (p : Path) : Except FileError (Option Entry) :=
  match t.stat p with
  | .ok e => .ok (some e)
  | .error .nameTooLong => .error ⟨.nameTooLong, p⟩
  | .error _ => .ok none

/-- A file stands at the path. -/
def isFile (t : FileTree) (p : Path) : Except FileError Bool :=
  (t.probe p).map fun e ↦ e.any Entry.isFile

/-- A directory stands at the path. -/
def isDirectory (t : FileTree) (p : Path) : Except FileError Bool :=
  (t.probe p).map fun e ↦ e.any (!·.isFile)

/-- Something stands at the path. -/
def pathExists (t : FileTree) (p : Path) : Except FileError Bool :=
  (t.probe p).map Option.isSome

/-- The time of the last change at a path; none if nothing is found there. Any other refusal is an
error. -/
def modified? (t : FileTree) (p : Path) : Except FileError (Option Timestamp) :=
  match t.stat p with
  | .ok e => .ok (some e.modified)
  | .error .notFound => .ok none
  | .error r => .error ⟨r, p⟩

/-- The bytes of the file at a path. -/
def read (t : FileTree) (p : Path) : Except FileError ByteArray :=
  match t.stat p with
  | .ok (.file bytes _) => .ok bytes
  | .ok (.directory _) => .error ⟨.isDirectory, p⟩
  | .error r => .error ⟨r, p⟩

/-- The path of a location below a directory, if it lies there; `none` for the directory itself. -/
def below? (directory l : Location) : Option (List Segment) :=
  if directory.length < l.length && l.drop (l.length - directory.length) == directory then
    some (l.take (l.length - directory.length)).reverse
  else none

/-- The paths of all files below the current directory, in order of their text. -/
def files (t : FileTree) : List String :=
  let paths := t.nodes.entries.filterMap fun n ↦
    if n.2.isFile then
      (below? t.current n.1).map fun ss ↦ "/".intercalate (ss.map Segment.text)
    else none
  paths.mergeSort (· ≤ ·)

end FileTree

end ModuleBuild
