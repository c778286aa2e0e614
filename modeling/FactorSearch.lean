import FactorSearch.Batch
import FactorSearch.Binary64
import FactorSearch.BitLayout
import FactorSearch.Capacity
import FactorSearch.Circuit
import FactorSearch.Clause
import FactorSearch.CommandLine
import FactorSearch.DecimalText
import FactorSearch.DepthFirst
import FactorSearch.Dimacs
import FactorSearch.Factorisation
import FactorSearch.Fault
import FactorSearch.FileError
import FactorSearch.Generation
import FactorSearch.Heuristic
import FactorSearch.Host
import FactorSearch.JsonText
import FactorSearch.Literal
import FactorSearch.Log
import FactorSearch.Main
import FactorSearch.Multiplier
import FactorSearch.Node
import FactorSearch.Path
import FactorSearch.ProblemText
import FactorSearch.Progress
import FactorSearch.PureLiterals
import FactorSearch.Restriction
import FactorSearch.Search
import FactorSearch.Session
import FactorSearch.SolutionText
import FactorSearch.Statistics
import FactorSearch.Table
import FactorSearch.Tally
import FactorSearch.Text.Blank
import FactorSearch.Text.Decimal
import FactorSearch.Text.Digit
import FactorSearch.Text.Integer
import FactorSearch.Text.Printable
import FactorSearch.Text.Quoted
import FactorSearch.Text.Utf8
import FactorSearch.TimeLimit
import FactorSearch.UnitPropagation
import FactorSearch.Valuation
import FactorSearch.World
import FactorSearch.Proofs.Descent
import FactorSearch.Proofs.Satisfaction
import FactorSearch.Proofs.Assignment
import FactorSearch.Proofs.Trace
import FactorSearch.Proofs.Branching
import FactorSearch.Proofs.Verdict
import FactorSearch.Proofs.Columns
import FactorSearch.Proofs.PartialProducts
import FactorSearch.Proofs.PinnedOutput
import FactorSearch.Proofs.ExactMultiplier
import FactorSearch.Proofs.Numerals
import FactorSearch.Proofs.Encoding
import FactorSearch.Proofs.Lines
import FactorSearch.Proofs.ClauseLines
import FactorSearch.Proofs.Annotations
import FactorSearch.Proofs.RoundTrip
import FactorSearch.Proofs.Factoring
import FactorSearch.Proofs.Residual
import FactorSearch.Proofs.Recursion
import FactorSearch.Proofs.History
import FactorSearch.Proofs.Interruption
import FactorSearch.Proofs.Independence
import FactorSearch.Proofs.Renaming
import FactorSearch.Proofs.FirstMaximum
import FactorSearch.Proofs.RenamedSearch
import FactorSearch.Proofs.Recording
import FactorSearch.Proofs.ReadVariables
import FactorSearch.Proofs.FileTree
import FactorSearch.Proofs.SolutionPlace
import FactorSearch.Proofs.FileHost
import FactorSearch.Proofs.DrawnProducts
import FactorSearch.Proofs.HostSearch
import FactorSearch.Proofs.Processing
import FactorSearch.Proofs.BatchRun
import FactorSearch.Proofs.ReportedFactors
import FactorSearch.Proofs.KeptFiles
import FactorSearch.Proofs.FileFaults
import FactorSearch.Proofs.BatchFaults
import FactorSearch.Proofs.Reloading
import FactorSearch.Proofs.ReadClauses
import FactorSearch.Proofs.PrintedProblems
import FactorSearch.Proofs.WrittenVerdicts
import FactorSearch.Proofs.FileWrites
import FactorSearch.Proofs.Repetition
import FactorSearch.Proofs.Isolation
import FactorSearch.Proofs.PrescribedClauses
import FactorSearch.Proofs.UnitClosure
import FactorSearch.Proofs.PureFree
import FactorSearch.Proofs.SolutionRoundTrip
import FactorSearch.Proofs.Notices
import FactorSearch.Proofs.Simplified
import FactorSearch.Proofs.SearchTree
import FactorSearch.Proofs.ColumnHeights
import FactorSearch.Proofs.OutputBits
import FactorSearch.Proofs.AnnotationShape
import FactorSearch.Proofs.LineFaults
import FactorSearch.Proofs.ReadingOutcome
import FactorSearch.Proofs.WeightedPick
import FactorSearch.Proofs.ActivityLedger
import FactorSearch.Proofs.SolutionTokens
import FactorSearch.Proofs.Rearrangement
import FactorSearch.Proofs.Insertion
import FactorSearch.Proofs.RootClauses
import FactorSearch.Proofs.ProgressShare
