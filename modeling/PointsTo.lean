import PointsTo.Main
import PointsTo.Proofs.Closure
import PointsTo.Proofs.CallGraph
import PointsTo.Proofs.Program.Scope
import PointsTo.Proofs.Program.Commands
import PointsTo.Proofs.Program.Accepted
import PointsTo.Proofs.Program.Uses
import PointsTo.Proofs.Program.Returns
import PointsTo.Proofs.Program.Owners
import PointsTo.Proofs.Program.Instances
import PointsTo.Proofs.Program.Callees
import PointsTo.Proofs.Program.HierarchyCalls
import PointsTo.Proofs.Program.Descriptions
import PointsTo.Proofs.Entities.Scope
import PointsTo.Proofs.Entities.Reading
import PointsTo.Proofs.Facts
import PointsTo.Proofs.PossibleFacts
import PointsTo.Proofs.FactCounts
import PointsTo.Proofs.HierarchySearch
import PointsTo.Proofs.Origins
import PointsTo.Proofs.Arguments
import PointsTo.Proofs.CallKinds
import PointsTo.Proofs.ReceiverContexts
import PointsTo.Proofs.Solver.State
import PointsTo.Proofs.Solver.Sound
import PointsTo.Proofs.Solver.Advance
import PointsTo.Proofs.Solver.Operations
import PointsTo.Proofs.Solver.Step
import PointsTo.Proofs.Solver.Fixpoint
import PointsTo.Proofs.Solver.Final
import PointsTo.Proofs.Solver.Figures
import PointsTo.Proofs.Solver.Effects
import PointsTo.Proofs.Solver.Callers
import PointsTo.Proofs.Solver.Safety
import PointsTo.Proofs.Solver.Obligations
import PointsTo.Proofs.Solver.Progress
import PointsTo.Proofs.Solver.WorkBound
import PointsTo.Proofs.Solver.Limit
import PointsTo.Proofs.Result.Queries
import PointsTo.Proofs.Result.Answers
import PointsTo.Proofs.Result.HierarchyBound
import PointsTo.Proofs.CallGraphIndex
import PointsTo.Proofs.Result.Projection
import PointsTo.Proofs.Execution.Semantics
import PointsTo.Proofs.Execution.View
import PointsTo.Proofs.Execution.Soundness
import PointsTo.Proofs.Precision.Abstraction
import PointsTo.Proofs.Precision.Coarsening
import PointsTo.Proofs.Precision.Refinement
import PointsTo.Proofs.Precision.HeapModels
import PointsTo.Proofs.Renaming.Basic
import PointsTo.Proofs.Renaming.Carries
import PointsTo.Proofs.Renaming.Orders
import PointsTo.Proofs.Lockstep.Contexts
import PointsTo.Proofs.Lockstep.Oblivious
import PointsTo.Proofs.Lockstep.Operations
import PointsTo.Proofs.Lockstep.Runs
import PointsTo.Proofs.CallStrings
import PointsTo.Proofs.Program.Declarations
import PointsTo.Proofs.Program.Growth
import PointsTo.Proofs.Program.Bodies
import PointsTo.Proofs.Program.Registry
import PointsTo.Proofs.Program.Folds
import PointsTo.Proofs.Program.Meanings
import PointsTo.Proofs.Program.Writing
import PointsTo.Proofs.Program.Headers
import PointsTo.Proofs.Program.Signatures
import PointsTo.Proofs.Program.Realization
import PointsTo.Proofs.Program.Subtypes
import PointsTo.Proofs.Program.Superclasses
import PointsTo.Proofs.Program.WellFormed
import PointsTo.Proofs.Variants.Relabeling
import PointsTo.Proofs.Variants.Embedding
import PointsTo.Proofs.Variants.MoreStatements
import PointsTo.Proofs.Variants.Validity
import PointsTo.Proofs.Variants.Trimming
import PointsTo.Proofs.Variants.TrimmedPrograms
import PointsTo.Proofs.Variants.TrimmedStates
import PointsTo.Proofs.Variants.TrimmedRuns
import PointsTo.Proofs.Variants.DeadCode
import PointsTo.Proofs.Variants.Hierarchies
import PointsTo.Proofs.Variants.Rearrangement
import PointsTo.Proofs.Variants.Undoing
import PointsTo.Proofs.Variants.Correspondence
import PointsTo.Proofs.Variants.CorrespondingBodies
import PointsTo.Proofs.Variants.CorrespondingPrograms
import PointsTo.Proofs.Variants.Reordering
import PointsTo.Proofs.Program.Listings
import PointsTo.Proofs.Program.Consistency
import PointsTo.Proofs.Program.Fidelity
import PointsTo.Proofs.Drawing.Statements
import PointsTo.Proofs.Drawing.Views
import PointsTo.Proofs.Drawing.Contents
import PointsTo.Proofs.ClosureOrder
import PointsTo.Proofs.Program.References
import PointsTo.Proofs.Program.SubtypeOrder
import PointsTo.Proofs.Program.Walks
import PointsTo.Proofs.Program.Cycles
import PointsTo.Proofs.Program.FieldLookups
import PointsTo.Proofs.Solver.Once
import PointsTo.Proofs.WorkHistories
import PointsTo.Proofs.CallGraphHistories
import PointsTo.Proofs.Entities.Histories
