import ModuleBuild.Main
import ModuleBuild.Proofs.Build.Again
import ModuleBuild.Proofs.Build.Commands
import ModuleBuild.Proofs.Build.Cycles
import ModuleBuild.Proofs.Build.Rebuild
import ModuleBuild.Proofs.Build.Resumption
import ModuleBuild.Proofs.Build.Retry
import ModuleBuild.Proofs.Listing.Finishing
import ModuleBuild.Proofs.Listing.Transparency
import ModuleBuild.Proofs.FileTree.Making
import ModuleBuild.Proofs.Build.Locality
import ModuleBuild.Proofs.Build.Permuting
import ModuleBuild.Proofs.Build.Products
import ModuleBuild.Proofs.Build.Cleaning
import ModuleBuild.Proofs.Build.Punctual
import ModuleBuild.Proofs.Build.Interruption
import ModuleBuild.Proofs.CommandLine.Status
import ModuleBuild.Proofs.Graph.Refusing
import ModuleBuild.Proofs.Module.Reaching
import ModuleBuild.Proofs.Graph.Termination
import ModuleBuild.Proofs.Graph.Loops
import ModuleBuild.Proofs.Graph.Confinement
import ModuleBuild.Proofs.Graph.Separation
import ModuleBuild.Proofs.Build.Lookups
import ModuleBuild.Proofs.Build.Planning
import ModuleBuild.Proofs.Graph.Reordering
import ModuleBuild.Proofs.Module.Writing
import ModuleBuild.Proofs.Source.Requests
import ModuleBuild.Proofs.Build.Atomicity
import ModuleBuild.Proofs.Build.Vanishing
import ModuleBuild.Proofs.Build.Composing
import ModuleBuild.Proofs.Module.Spelling
import ModuleBuild.Proofs.Listing.Distinctness
import ModuleBuild.Proofs.Target.Calls
import ModuleBuild.Proofs.Build.Containment
import ModuleBuild.Proofs.Build.SideFiles
import ModuleBuild.Proofs.Graph.Linking
import ModuleBuild.Proofs.Module.Padding
import ModuleBuild.Proofs.Settings.Precedence
import ModuleBuild.Proofs.Text.OpenEnds
import ModuleBuild.Proofs.Text.ItemList
import ModuleBuild.Proofs.Module.Scoping
