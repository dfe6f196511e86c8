import ModuleBuild.FileTree.Basic

/-!
# Changing a file tree

Writing and removing files and making directories. An operation that fails may have changed the tree:
of the directories on the way to a new one, some may have been made.
-/

namespace ModuleBuild.FileTree

/-- Write a file. The directory it stands in must exist. -/
def write (t : FileTree) (p : Path) (bytes : ByteArray) (modified : Timestamp) :
    Except FileError FileTree :=
  match t.locate p with
  | .error r => .error ⟨r, p⟩
  | .ok l =>
    match t.entry? l with
    | some (.directory _) => .error ⟨.isDirectory, p⟩
    | _ => .ok (t.put l (.file bytes modified))

/-- Remove a file. -/
def remove (t : FileTree) (p : Path) : Except FileError FileTree :=
  match t.locate p with
  | .error r => .error ⟨r, p⟩
  | .ok l =>
    match t.entry? l with
    | some (.file ..) => .ok (t.erase l)
    | some (.directory _) => .error ⟨.isDirectory, p⟩
    | none => .error ⟨.notFound, p⟩

/-- Make one directory. The directory it stands in must exist. -/
def makeDirectory (t : FileTree) (p : Path) : Except FileError FileTree :=
  match t.locate p with
  | .error r => .error ⟨r, p⟩
  | .ok l =>
    match t.entry? l with
    | some _ => .error ⟨.alreadyExists, p⟩
    | none => .ok (t.put l (.directory t.clock))

/-- Pass over a refusal to make a directory if a directory stands there. -/
def acceptExisting (t : FileTree) (e : FileError) : Except FileError Unit :=
  if e.refusal = .nullCharacter then .error e
  else do if ← t.isDirectory e.path then .ok () else .error e

/-- Make the directory at an anchor and reversed segments, and before it those on the way that are
missing. The tree is given back also when this fails. -/
def makeDirectories (t : FileTree) (anchor : Anchor) : List Segment → FileTree × Except FileError Unit
  | [] =>
    match t.makeDirectory ⟨anchor, []⟩ with
    | .ok t => (t, .ok ())
    | .error e => if e.refusal = .notFound then (t, .error e) else (t, t.acceptExisting e)
  | s :: ss =>
    match t.makeDirectory ⟨anchor, (s :: ss).reverse⟩ with
    | .ok t => (t, .ok ())
    | .error e =>
      if e.refusal = .notFound then
        match t.makeDirectories anchor ss with
        | (t, .error e) => (t, .error e)
        | (t, .ok ()) =>
          match t.makeDirectory ⟨anchor, (s :: ss).reverse⟩ with
          | .ok t => (t, .ok ())
          | .error e => if e.refusal = .notFound then (t, .error e) else (t, t.acceptExisting e)
      else (t, t.acceptExisting e)

/-- See to it that a directory stands at the path. -/
def ensureDirectory (t : FileTree) (p : Path) : FileTree × Except FileError Unit :=
  t.makeDirectories p.anchor p.segments.reverse

end ModuleBuild.FileTree
