import MachineIR.Ty
import MachineIR.Operator
import MachineIR.FloatFormat
import MachineIR.Decimal
import MachineIR.Text.Visible
import MachineIR.Text.Quoted
import MachineIR.ByteOrder
import MachineIR.Constant.Basic
import MachineIR.Constant.Arithmetic
import MachineIR.Constant.Conversion
import MachineIR.Constant.Text
import MachineIR.Handle
import MachineIR.Operand
import MachineIR.Opcode
import MachineIR.Instruction
import MachineIR.Store
import MachineIR.Image
import MachineIR.Architecture
import MachineIR.Error
import MachineIR.Use
import MachineIR.Routine.Basic
import MachineIR.Routine.Text
import MachineIR.Routine.Edit
import MachineIR.Routine.Placement
import MachineIR.Routine.Cursor
import MachineIR.Routine.Flow
import MachineIR.FlowGraph.Basic
import MachineIR.FlowGraph.Dominance
import MachineIR.Routine.Layout
import MachineIR.Routine.Validation
import MachineIR.Routine.Identity
import MachineIR.Pass.DeadCode
import MachineIR.Pass.ConstantFolding
import MachineIR.Pass.Deduplication
import MachineIR.Pass.Peephole
import MachineIR.Pass.LoadResolution
import MachineIR.Pass.RegisterForwarding
import MachineIR.Event
import MachineIR.Pass.Pipeline
import MachineIR.Lifting
import MachineIR.Proofs.Edit
import MachineIR.Proofs.Chain
import MachineIR.Proofs.UseTable
import MachineIR.Proofs.Views
import MachineIR.Proofs.Tracking
import MachineIR.Proofs.OperandEdits
import MachineIR.Proofs.Replacement
import MachineIR.Proofs.PlacementEdits
import MachineIR.Proofs.BlockEdits
import MachineIR.Proofs.PassEdits
import MachineIR.Proofs.UseSoundness
import MachineIR.Proofs.Identity
import MachineIR.Proofs.Execution
import MachineIR.Proofs.Checks
import MachineIR.Proofs.Evaluation
import MachineIR.Proofs.Algebra
import MachineIR.Proofs.Rewiring
import MachineIR.Proofs.PeepholeRules
import MachineIR.Proofs.PeepholeLaws
import MachineIR.Proofs.PeepholeEdits
import MachineIR.Proofs.PeepholeValues
import MachineIR.Proofs.BlockLists
import MachineIR.Proofs.Integrity
import MachineIR.Proofs.WellFormed
import MachineIR.Proofs.DeadCode
import MachineIR.Proofs.PeepholeTypes
import MachineIR.Proofs.Places
import MachineIR.Proofs.Arrangement
import MachineIR.Proofs.Sweeps
import MachineIR.Proofs.Traversal
import MachineIR.Proofs.Edges
import MachineIR.Proofs.ImageTables
import MachineIR.Proofs.ConstantMemory
import MachineIR.Proofs.Codes
import MachineIR.Proofs.Reductions
import MachineIR.Proofs.Outcomes
import MachineIR.Proofs.Sequences
import MachineIR.Proofs.PassReductions
import MachineIR.Proofs.RegisterSweep
import MachineIR.Proofs.DeadWrites
import MachineIR.Proofs.Ranks
import MachineIR.Proofs.RegisterRuns
import MachineIR.Proofs.RegisterChanges
import MachineIR.Proofs.RegisterSimulation
import MachineIR.Proofs.PipelineRuns
import MachineIR.Proofs.Convergence
import MachineIR.Proofs.Frames
import MachineIR.Proofs.Idle
import MachineIR.Proofs.Agreement
import MachineIR.Proofs.Fixpoint
import MachineIR.Proofs.Rounds
import MachineIR.Proofs.RetiredHandles
import MachineIR.Proofs.Destruction
import MachineIR.Proofs.Loops
import MachineIR.Proofs.PassFailures
import MachineIR.Proofs.PassTypes
import MachineIR.Proofs.Bisimilarity
import MachineIR.Proofs.SoundBuild
import MachineIR.Proofs.Deduplication
import MachineIR.Proofs.Accumulator
import MachineIR.Proofs.CastChains
import MachineIR.Proofs.FoldedValues
import MachineIR.Proofs.MovedUses
import MachineIR.Proofs.Dominance
import MachineIR.Proofs.Reachability
import MachineIR.Proofs.Postorder
import MachineIR.Proofs.Coverage
import MachineIR.Proofs.Distance
import MachineIR.Proofs.Preorder
import MachineIR.Proofs.LayoutOrder
import MachineIR.Proofs.LiveCode
import MachineIR.Proofs.Settling
import MachineIR.Proofs.RegisterSettling
import MachineIR.Proofs.PhiOperands
import MachineIR.Proofs.Filtering
import MachineIR.Proofs.Codecs
import MachineIR.Proofs.Detection
import MachineIR.Proofs.LiftedBlocks
import MachineIR.Proofs.Bookkeeping
import MachineIR.Proofs.Names
