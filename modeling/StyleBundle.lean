import StyleBundle.Boundary
import StyleBundle.Directive
import StyleBundle.Expansion.Expanded
import StyleBundle.FileTree.Update
import StyleBundle.Json.Parser
import StyleBundle.Json.Printer
import StyleBundle.Main
import StyleBundle.Proofs.Expansion.Assembly
import StyleBundle.Proofs.Source.Memory
import StyleBundle.Source.Disk
import StyleBundle.Source.Memory
import StyleBundle.Proofs.Path.Clean
import StyleBundle.Proofs.FileTree.Locate
import StyleBundle.Proofs.Source.Disk
import StyleBundle.Proofs.Expansion.Depth
import StyleBundle.Proofs.Expansion.Cycle
import StyleBundle.Proofs.Directive
import StyleBundle.Proofs.Expansion.Splice
import StyleBundle.Proofs.Expansion.InPlace
import StyleBundle.Proofs.Expansion.Dependencies
import StyleBundle.Proofs.Expansion.Sufficiency
import StyleBundle.Proofs.Expansion.Unlimited
import StyleBundle.Proofs.Path.Absolute
import StyleBundle.Proofs.Expansion.Request
import StyleBundle.Proofs.Resolve.Settings
import StyleBundle.Proofs.Expansion.Termination
import StyleBundle.Proofs.Expansion.Reads
import StyleBundle.Proofs.Expansion.Sessions
import StyleBundle.Proofs.FileTree.Update
import StyleBundle.Proofs.Build.Prepare
import StyleBundle.Proofs.Config.Accepted
import StyleBundle.Proofs.Path.Extension
import StyleBundle.Proofs.Path.Relative
import StyleBundle.Proofs.Glob.Matching
import StyleBundle.Proofs.Glob.Routes
import StyleBundle.Proofs.FileTree.Write
import StyleBundle.Proofs.Build.Discovery
import StyleBundle.Proofs.Build.Units
import StyleBundle.Proofs.Build.Runs
import StyleBundle.Proofs.Path.Order
import StyleBundle.Proofs.Build.Manifest
import StyleBundle.Proofs.Build.Collisions
import StyleBundle.Proofs.Config.Rooted
import StyleBundle.Proofs.FileTree.Inside
import StyleBundle.Proofs.Build.Containment
import StyleBundle.Proofs.Glob.Components
import StyleBundle.Proofs.Glob.Covering
import StyleBundle.Proofs.Glob.Reach
import StyleBundle.Proofs.Glob.Agreement
import StyleBundle.Proofs.Build.Partition
import StyleBundle.Proofs.FileTree.Alike
import StyleBundle.Proofs.Expansion.Agreement
import StyleBundle.Proofs.Source.Outside
import StyleBundle.Proofs.Glob.Alike
import StyleBundle.Proofs.Build.Pairs
import StyleBundle.Proofs.Build.Invalidation
import StyleBundle.Proofs.Directive.Grammar
import StyleBundle.Proofs.Source.Arrangement
import StyleBundle.Proofs.Expansion.Canonical
import StyleBundle.Proofs.Expansion.Hidden
import StyleBundle.Proofs.FileTree.Grown
import StyleBundle.Proofs.Source.Grown
import StyleBundle.Proofs.Build.Accounting
import StyleBundle.Proofs.Config.Groups
import StyleBundle.Proofs.Build.Isolation
import StyleBundle.Proofs.Directive.PassedOver
import StyleBundle.Proofs.Source.Snapshot
import StyleBundle.Proofs.Resolve.FirstFile
import StyleBundle.Proofs.Resolve.AliasBase
import StyleBundle.Proofs.Wildcard
import StyleBundle.Proofs.Expansion.Repetition
import StyleBundle.Proofs.Resolve.Partial
import StyleBundle.Proofs.Expansion.Lines
import StyleBundle.Proofs.Path.Joining
import StyleBundle.Proofs.Compile.PackageImport
import StyleBundle.Proofs.Compile.PackageTildes
import StyleBundle.Proofs.Compile.ImportList
import StyleBundle.Proofs.Compile.Replaced
import StyleBundle.Proofs.Compile.Prepared
import StyleBundle.Proofs.Source.Transparency
import StyleBundle.Proofs.Expansion.Bundle
import StyleBundle.Proofs.Compile.Diagnosis
import StyleBundle.Proofs.Path.Renamed
import StyleBundle.Proofs.Json.Members
import StyleBundle.Proofs.Compile.Rewritten
import StyleBundle.Proofs.Resolve.Rebuilt
import StyleBundle.Proofs.Config.Rerooted
import StyleBundle.Proofs.Text.Bytes
import StyleBundle.Proofs.Json.ReadBack
import StyleBundle.Proofs.Build.ManifestText
import StyleBundle.Proofs.Build.Recreated
import StyleBundle.Proofs.Expansion.Guards
import StyleBundle.Proofs.Expansion.Spans
import StyleBundle.Proofs.Expansion.Hindrance
