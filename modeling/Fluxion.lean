import Fluxion.Arithmetic
import Fluxion.Buffers
import Fluxion.Calculus
import Fluxion.Coloring.Basic
import Fluxion.Coloring.Check
import Fluxion.Count
import Fluxion.Decimal
import Fluxion.Detect.Blocks
import Fluxion.Detect.Hierarchical
import Fluxion.Detect.Jacobian
import Fluxion.Detect.Plain
import Fluxion.Detect.Propagation
import Fluxion.Detect.Refine
import Fluxion.Dyadic
import Fluxion.Expr.Basic
import Fluxion.Expr.Build
import Fluxion.Expr.Text
import Fluxion.Fault
import Fluxion.Function.Assemble
import Fluxion.Function.Definition
import Fluxion.Function.Derived
import Fluxion.Function.Differences
import Fluxion.Function.Evaluate
import Fluxion.Function.Instance
import Fluxion.Function.Machine
import Fluxion.Function.Recover
import Fluxion.Function.Sparsity
import Fluxion.Function.Symbolic
import Fluxion.Function.Taped
import Fluxion.Graph
import Fluxion.Grouping
import Fluxion.Matrix
import Fluxion.Mode
import Fluxion.Named
import Fluxion.Number
import Fluxion.Op
import Fluxion.Options
import Fluxion.Pattern.Basic
import Fluxion.Pattern.Family
import Fluxion.Pattern.Lemmas
import Fluxion.Proofs.Coloring.Check
import Fluxion.Proofs.Coloring.Columns
import Fluxion.Proofs.Coloring.Greedy
import Fluxion.Proofs.Coloring.Guarantees
import Fluxion.Proofs.Coloring.Star
import Fluxion.Proofs.Detect.BlockSize
import Fluxion.Proofs.Detect.Filling
import Fluxion.Proofs.Detect.Finish
import Fluxion.Proofs.Detect.Lanes
import Fluxion.Proofs.Detect.Mirror
import Fluxion.Proofs.Detect.Partition
import Fluxion.Proofs.Detect.Plain
import Fluxion.Proofs.Detect.Recovery
import Fluxion.Proofs.Detect.Refine
import Fluxion.Proofs.Detect.Rounds
import Fluxion.Proofs.Detect.Schedule
import Fluxion.Proofs.Detect.Splits
import Fluxion.Proofs.Detect.Subdivision
import Fluxion.Proofs.Detect.Symmetric
import Fluxion.Proofs.Detect.Words
import Fluxion.Proofs.Dual
import Fluxion.Proofs.Exact
import Fluxion.Proofs.Expr.Advances
import Fluxion.Proofs.Expr.Applied
import Fluxion.Proofs.Expr.Built
import Fluxion.Proofs.Expr.Grows
import Fluxion.Proofs.Expr.Meaning
import Fluxion.Proofs.Expr.Partials
import Fluxion.Proofs.Expr.Renumbered
import Fluxion.Proofs.Expr.Returns
import Fluxion.Proofs.Expr.Simplified
import Fluxion.Proofs.Expr.Value
import Fluxion.Proofs.Function.Agreement
import Fluxion.Proofs.Function.Answers
import Fluxion.Proofs.Function.Assemble
import Fluxion.Proofs.Function.Batches
import Fluxion.Proofs.Function.Beside
import Fluxion.Proofs.Function.Blocks
import Fluxion.Proofs.Function.Bodies
import Fluxion.Proofs.Function.Call
import Fluxion.Proofs.Function.CentralDifference
import Fluxion.Proofs.Function.Colorwise
import Fluxion.Proofs.Function.Compaction
import Fluxion.Proofs.Function.Decided
import Fluxion.Proofs.Function.Dense
import Fluxion.Proofs.Function.Derivative
import Fluxion.Proofs.Function.Directions
import Fluxion.Proofs.Function.Directionwise
import Fluxion.Proofs.Function.Drawn
import Fluxion.Proofs.Function.Effect
import Fluxion.Proofs.Function.Enlarged
import Fluxion.Proofs.Function.Evaluate
import Fluxion.Proofs.Function.ExactEffect
import Fluxion.Proofs.Function.Fits
import Fluxion.Proofs.Function.Gradient
import Fluxion.Proofs.Function.Hessian
import Fluxion.Proofs.Function.Hinges
import Fluxion.Proofs.Function.Intact
import Fluxion.Proofs.Function.Jacobian
import Fluxion.Proofs.Function.Jobs
import Fluxion.Proofs.Function.Made
import Fluxion.Proofs.Function.Nested
import Fluxion.Proofs.Function.NumericJacobian
import Fluxion.Proofs.Function.OverElements
import Fluxion.Proofs.Function.Points
import Fluxion.Proofs.Function.Quadratics
import Fluxion.Proofs.Function.Quotients
import Fluxion.Proofs.Function.Ready
import Fluxion.Proofs.Function.Rebuilt
import Fluxion.Proofs.Function.Recover
import Fluxion.Proofs.Function.RecoverMap
import Fluxion.Proofs.Function.Regular
import Fluxion.Proofs.Function.Renumbered
import Fluxion.Proofs.Function.Replay
import Fluxion.Proofs.Function.Restore
import Fluxion.Proofs.Function.Rounds
import Fluxion.Proofs.Function.Seated
import Fluxion.Proofs.Function.SeedSymbols
import Fluxion.Proofs.Function.Seedwise
import Fluxion.Proofs.Function.Settle
import Fluxion.Proofs.Function.SingleSeeds
import Fluxion.Proofs.Function.Slope
import Fluxion.Proofs.Function.Sparsity
import Fluxion.Proofs.Function.Steps
import Fluxion.Proofs.Function.Substitute
import Fluxion.Proofs.Function.SweepCount
import Fluxion.Proofs.Function.Sweeps
import Fluxion.Proofs.Function.SymbolicJacobian
import Fluxion.Proofs.Function.SymmetricBlocks
import Fluxion.Proofs.Function.SymmetricRecovery
import Fluxion.Proofs.Function.Twins
import Fluxion.Proofs.Function.UnitSeeds
import Fluxion.Proofs.Function.Unresolved
import Fluxion.Proofs.Function.UsedColors
import Fluxion.Proofs.Function.Weighing
import Fluxion.Proofs.Function.ZeroSeeds
import Fluxion.Proofs.Grouping
import Fluxion.Proofs.Matrix
import Fluxion.Proofs.Order.DepthFirst
import Fluxion.Proofs.Order.Levels
import Fluxion.Proofs.Pattern.Compressed
import Fluxion.Proofs.Pattern.Enlarge
import Fluxion.Proofs.Pattern.Entries
import Fluxion.Proofs.Pattern.Merge
import Fluxion.Proofs.Pattern.Rows
import Fluxion.Proofs.Pattern.Transpose
import Fluxion.Proofs.Run
import Fluxion.Proofs.Sharing
import Fluxion.Proofs.Tape.Against
import Fluxion.Proofs.Tape.Along
import Fluxion.Proofs.Tape.Beside
import Fluxion.Proofs.Tape.Carried
import Fluxion.Proofs.Tape.Chain
import Fluxion.Proofs.Tape.ChainRule
import Fluxion.Proofs.Tape.Checked
import Fluxion.Proofs.Tape.Cleared
import Fluxion.Proofs.Tape.Compile
import Fluxion.Proofs.Tape.Dependence
import Fluxion.Proofs.Tape.Duality
import Fluxion.Proofs.Tape.Elements
import Fluxion.Proofs.Tape.Free
import Fluxion.Proofs.Tape.Grows
import Fluxion.Proofs.Tape.Inputs
import Fluxion.Proofs.Tape.Inside
import Fluxion.Proofs.Tape.Leveled
import Fluxion.Proofs.Tape.Live
import Fluxion.Proofs.Tape.LiveRanges
import Fluxion.Proofs.Tape.Map
import Fluxion.Proofs.Tape.Peak
import Fluxion.Proofs.Tape.Products
import Fluxion.Proofs.Tape.Recorded
import Fluxion.Proofs.Tape.Renumbered
import Fluxion.Proofs.Tape.Sensitivities
import Fluxion.Proofs.Tape.Sparsity
import Fluxion.Proofs.Tape.Stored
import Fluxion.Proofs.Tape.Symbolic
import Fluxion.Proofs.Tape.SymbolicPartials
import Fluxion.Proofs.Tape.SymbolicReplay
import Fluxion.Proofs.Tape.Values
import Fluxion.Record
import Fluxion.Report
import Fluxion.Tape.Basic
import Fluxion.Tape.Build
import Fluxion.Tape.Dependence
import Fluxion.Tape.Order
import Fluxion.Tape.Replay
import Fluxion.Tape.Slots
import Fluxion.Tape.Store
import Fluxion.Text.Hidden
import Fluxion.Text.Quoted
import Fluxion.Workspace
