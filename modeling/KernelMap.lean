import KernelMap.Access.Basic
import KernelMap.Access.Extent
import KernelMap.Access.Pairing
import KernelMap.Affine.Basic
import KernelMap.Affine.Parser
import KernelMap.Affine.Printer
import KernelMap.Body.Basic
import KernelMap.Body.Interchange
import KernelMap.Compile
import KernelMap.Constraint.Basic
import KernelMap.Constraint.Parser
import KernelMap.Failure
import KernelMap.Group.Basic
import KernelMap.Group.Bounds
import KernelMap.Group.Budget
import KernelMap.Group.Merge
import KernelMap.Group.Unroll
import KernelMap.Json.Affine
import KernelMap.Json.Basic
import KernelMap.Json.Kernel
import KernelMap.Json.Options
import KernelMap.Json.Printer
import KernelMap.Json.Program
import KernelMap.Json.Reader
import KernelMap.Json.Record
import KernelMap.Json.Schedule
import KernelMap.Json.Tile
import KernelMap.Kernel
import KernelMap.Options
import KernelMap.Polyhedron.Basic
import KernelMap.Polyhedron.Equalities
import KernelMap.Polyhedron.Optimum
import KernelMap.Polyhedron.Project
import KernelMap.Polyhedron.Simplify
import KernelMap.Program.Basic
import KernelMap.Program.Draft
import KernelMap.Program.Extents
import KernelMap.Program.Validity
import KernelMap.Schedule.Build
import KernelMap.Schedule.Kernel
import KernelMap.Schedule.Level
import KernelMap.Schedule.Share
import KernelMap.Schedule.Statement
import KernelMap.Scope.Basic
import KernelMap.Scope.Coverage
import KernelMap.Sorted
import KernelMap.Space
import KernelMap.Text.Blank
import KernelMap.Text.Digit
import KernelMap.Text.Name
import KernelMap.Tile.Basic
import KernelMap.Tile.Bound
import KernelMap.Tile.Infer
import KernelMap.Tree.Basic
import KernelMap.Tree.Build
import KernelMap.Word
import KernelMap.Proofs.Outcome
import KernelMap.Proofs.Value
import KernelMap.Proofs.Constraint
import KernelMap.Proofs.Polyhedron
import KernelMap.Proofs.Simplify
import KernelMap.Proofs.Project
import KernelMap.Proofs.Optimum
import KernelMap.Proofs.Equalities
import KernelMap.Proofs.Access
import KernelMap.Proofs.Stride
import KernelMap.Proofs.Bound
import KernelMap.Proofs.Tile
import KernelMap.Proofs.Share
import KernelMap.Proofs.Launch
import KernelMap.Proofs.Mapping
import KernelMap.Proofs.Spread
import KernelMap.Proofs.Schedule
import KernelMap.Proofs.Instances
import KernelMap.Proofs.Inclusion
import KernelMap.Proofs.Normal
import KernelMap.Proofs.Consistent
import KernelMap.Proofs.Exact
import KernelMap.Proofs.Pairing
import KernelMap.Proofs.References
import KernelMap.Proofs.Coverage
import KernelMap.Proofs.Grouping
import KernelMap.Proofs.Copies
import KernelMap.Proofs.Layout
import KernelMap.Proofs.Relation
import KernelMap.Proofs.Visits
import KernelMap.Proofs.Placement
import KernelMap.Proofs.LocalMemory
import KernelMap.Proofs.Granule
import KernelMap.Proofs.Separation
import KernelMap.Proofs.LeafOrder
import KernelMap.Proofs.Barriers
import KernelMap.Proofs.Arrangement
import KernelMap.Proofs.RelationPoints
import KernelMap.Proofs.Isolation
import KernelMap.Proofs.Stability
import KernelMap.Proofs.EngineCauses
import KernelMap.Proofs.ScheduleCauses
import KernelMap.Proofs.GroupCauses
import KernelMap.Proofs.CompileCauses
import KernelMap.Proofs.Tightening
import KernelMap.Proofs.Extent
import KernelMap.Proofs.Interchange
import KernelMap.Proofs.Nesting
import KernelMap.Proofs.Unrolling
import KernelMap.Proofs.Budget
import KernelMap.Proofs.TileLoops
import KernelMap.Proofs.Derivations
import KernelMap.Proofs.EngineFaults
import KernelMap.Proofs.AffineGrammar
import KernelMap.Proofs.ComparisonChains
import KernelMap.Proofs.ReferenceList
import KernelMap.Proofs.GeneratedNames
import KernelMap.Proofs.Rendering
import KernelMap.Proofs.DraftSteps
import KernelMap.Proofs.Renumbering
import KernelMap.Proofs.DraftTexts
import KernelMap.Proofs.JsonText
import KernelMap.Proofs.JsonProgram
import KernelMap.Proofs.Canonical
import KernelMap.Proofs.AffineAlgebra
import KernelMap.Proofs.Divisions
