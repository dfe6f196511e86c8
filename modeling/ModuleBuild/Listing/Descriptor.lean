import ModuleBuild.Failure
import ModuleBuild.FileTree.Change
import ModuleBuild.Graph.Basic
import ModuleBuild.Listing.Rules
import ModuleBuild.Log

/-!
# Dependency descriptors

After a compile the listing becomes the object's dependency descriptor: the listing itself and the phony
rules for its files. Later the descriptors tell on which headers the objects of a graph depend.
-/

namespace ModuleBuild.Listing

/-- The text of a file of the project. -/
def readText (t : FileTree) (p : Path) : Except Failure String := do
  let bytes ← (t.read p).mapError .file
  (Text.Utf8.readText bytes).mapError .notUtf8

/-- The descriptor that is made of a listing: the listing, its last line ended, and phony rules. -/
def descriptorText (listing : String) : String :=
  let listing :=
    if listing = "" || listing.toList.getLast? = some '\n' then listing else listing ++ "\n"
  listing ++ phonyRules listing

/-- Make the dependency descriptor of an object from the listing that its compiler left, and remove the
listing. There may be none. The tree is given back also when this fails. -/
def finalize (t : FileTree) (project : Path) (o : ObjectRecord) :
    FileTree × Except Failure (Option Path) :=
  let planned : Except Failure (Option (Path × Path × FileTree)) := do
    let listing := project / (← o.listing.mapError .namelessObject)
    if ← (t.pathExists listing).mapError .file then
      let text ← readText t listing
      let descriptor := project / (← o.dependencies.mapError .namelessObject)
      let t ← (t.write descriptor (descriptorText text).toUTF8 t.clock).mapError .file
      return some (listing, descriptor, t)
    else
      return none
  match planned with
  | .error f => (t, .error f)
  | .ok none => (t, .ok none)
  | .ok (some (listing, descriptor, t)) =>
    match t.remove listing with
    | .error e => (t, .error (.file e))
    | .ok t => (t, .ok (some descriptor))

/-- What is said of an object whose compiler left no listing. -/
def noListingRecord (o : ObjectRecord) : Log.Record :=
  ⟨.debug, "No dependency listing for " ++ toString o.path⟩

/-- The headers that the descriptor of an object names, if there is a descriptor. The object and its
source are no headers. -/
def headersOf (t : FileTree) (project : Path) (o : ObjectRecord) :
    Except Failure (Option (List Path)) := do
  let descriptor := project / (← o.dependencies.mapError .namelessObject)
  if ← (t.isFile descriptor).mapError .file then
    let text ← readText t descriptor
    return some ((prerequisites text).filter fun p ↦ p ≠ o.path ∧ p ≠ o.source)
  else
    return none

/-- Take the headers of objects into a table; the number of descriptors found comes with it. The headers
taken in before a failure stay. -/
def includeAll (t : FileTree) (project : Path) (headers : Table Path (List Path)) :
    List ObjectRecord → Table Path (List Path) × Except Failure Nat
  | [] => (headers, .ok 0)
  | o :: os =>
    match headersOf t project o with
    | .error f => (headers, .error f)
    | .ok none => includeAll t project headers os
    | .ok (some hs) =>
      let (headers, n) := includeAll t project (headers.insert o.path hs) os
      (headers, n.map (· + 1))

/-- The graph with the headers that dependency descriptors name, and the number of these. -/
def includeHeaders (t : FileTree) (project : Path) (g : Graph) : Graph × Except Failure Nat :=
  let (headers, n) := includeAll t project g.headers g.objects.values
  ({ g with headers }, n)

/-- What is said of the descriptors that were found. -/
def includeRecord (n : Nat) : Log.Record :=
  ⟨.debug, "Included " ++ toString n ++ " dependency descriptors"⟩

end ModuleBuild.Listing
