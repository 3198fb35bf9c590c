import TablePipeline.Main
import TablePipeline.Workspace.Writer
import TablePipeline.Workspace.OfProgram
import TablePipeline.Proofs.Schema
import TablePipeline.Proofs.Compile
import TablePipeline.Proofs.RoundTrip
import TablePipeline.Proofs.JsonText
import TablePipeline.Proofs.WorkspaceText
import TablePipeline.Proofs.ProgramText
import TablePipeline.Proofs.Brackets
import TablePipeline.Proofs.Composition
import TablePipeline.Proofs.Registry
import TablePipeline.Proofs.Display
import TablePipeline.Proofs.Sequence
import TablePipeline.Proofs.Kept
import TablePipeline.Proofs.BlockShape
import TablePipeline.Proofs.Reload
import TablePipeline.Proofs.ScannedNumbers
import TablePipeline.Proofs.Refinement
import TablePipeline.Proofs.Saving
import TablePipeline.Proofs.Independence
import TablePipeline.Proofs.Accounting
import TablePipeline.Proofs.Typing
import TablePipeline.Proofs.Grouping
import TablePipeline.Proofs.RowOrder
import TablePipeline.Proofs.Regrouping
import TablePipeline.Proofs.SummaryColumns
import TablePipeline.Proofs.Reduction
import TablePipeline.Proofs.GroupedSummary
import TablePipeline.Proofs.Join
import TablePipeline.Proofs.JoinGroups
import TablePipeline.Proofs.Rewriting
import TablePipeline.Proofs.Rounding
import TablePipeline.Proofs.Arithmetic
import TablePipeline.Proofs.Comparison
import TablePipeline.Proofs.Sums
import TablePipeline.Proofs.Extremes
import TablePipeline.Proofs.Places
import TablePipeline.Proofs.Erasure
import TablePipeline.Proofs.Stacks
import TablePipeline.Proofs.Datasets
import TablePipeline.Proofs.BinCounts
import TablePipeline.Proofs.Options
import TablePipeline.Proofs.HistogramExtent
import TablePipeline.Proofs.Roles
