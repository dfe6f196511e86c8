import ModuleBuild.Graph.Assembly
import ModuleBuild.Graph.Synthesis
import ModuleBuild.Listing.Descriptor
import ModuleBuild.Settings.Override

/-!
# Resolution

From a project tree to its build graph: the root module is loaded, the settings are laid over one another,
the module tree is walked and assembled, and commands are synthesized. Resolution reads the tree and
never changes it.
-/

namespace ModuleBuild

/-- The descriptor of the root module unless another one is named. -/
def Project.defaultRoot : Path := .ofString "main.ini"

/-- A project that is to be resolved. -/
structure Project where
  /-- The directory that all paths of the graph start from. -/
  directory : Path := .here
  /-- The descriptor of the root module. -/
  root : Path := Project.defaultRoot
  /-- The settings under those of the root module. -/
  settings : Settings := {}
  overrides : Overrides := []
  /-- Take in the headers that dependency descriptors name. -/
  includeHeaders : Bool := true

/-- A resolved project. -/
structure Resolved where
  graph : Graph
  settings : Settings
  deriving DecidableEq, Repr

namespace Project

/-- The root module and the settings in effect. -/
def load (p : Project) (t : FileTree) : Except Failure (Module × Settings) := do
  let root ← (Module.load t p.directory p.root).mapError .ofLoad
  let settings := root.project.elim p.settings p.settings.apply
  let settings ← (settings.override p.overrides).mapError .override
  return (root, settings)

/-- The build graph of an assembly, without headers. -/
def graphOf (s : Settings) (a : Assembly) : Except Failure Graph :=
  Graph.synthesize s a.registry.targets.values a.objects a.ownership.hasCxx

/-- What is said at the end of a resolution. -/
def resolvedRecord (p : Project) (g : Graph) : Log.Record where
  level := .info
  text :=
    "Resolved " ++ toString g.targets.entries.length ++ " targets and " ++
      toString g.objects.entries.length ++ " objects from " ++ toString p.root

/-- Take in the headers of a graph, if the project asks for them. -/
def withHeaders (p : Project) (t : FileTree) (g : Graph) :
    Except Failure (Graph × List Log.Record) :=
  if p.includeHeaders then
    let (g, n) := Listing.includeHeaders t p.directory g
    n.map fun n ↦ (g, [Listing.includeRecord n])
  else .ok (g, [])

/-- Resolve a project; with the answer comes what is said on the way. -/
def resolve (p : Project) (t : FileTree) : List Log.Record × Except Failure Resolved :=
  match p.load t with
  | .error f => ([], .error f)
  | .ok (root, s) =>
    let (said, assembled) := (Assembly.start s).follow (root.walkFrom t p.directory s.targetDir)
    match assembled >>= graphOf s with
    | .error f => (said, .error f)
    | .ok g =>
      let said := said ++ [g.synthesisRecord]
      match p.withHeaders t g with
      | .error f => (said, .error f)
      | .ok (g, included) => (said ++ included ++ [p.resolvedRecord g], .ok ⟨g, s⟩)

end Project

end ModuleBuild
