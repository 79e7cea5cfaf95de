import Influence.Program.Enumeration
import Influence.Program.LpText
import Influence.Encoding.Objective
import Influence.Encoding.PathExpressions
import Influence.Outcome.Risk
import Influence.Outcome.StateProbabilities
import Influence.Diagram.Assembly
import Influence.Diagram.Tables
import Influence.Text.Json.Reader
import Influence.Text.Json.Writer
import Influence.Study.Validation
import Influence.Study.Snapshot
import Influence.Study.Report
import Influence.Study.Reading
import Influence.Text.Toml.Reader
import Influence.Strategy.Compatible
import Influence.Log.Level
import Influence.Log.Event
import Influence.Log.Trace
import Influence.Log.Filter
import Influence.Study.ExitStatus
import Influence.Study.Schema
import Influence.Study.Narration
import Influence.Shell.Program
import Influence.Number.Exact
import Influence.Main
import Influence.Proofs.Exact
import Influence.Proofs.Paths
import Influence.Proofs.Reachable
import Influence.Proofs.TotalProbability
import Influence.Proofs.Layout
import Influence.Proofs.Feasible
import Influence.Proofs.TailExpectation
import Influence.Proofs.Spread
import Influence.Proofs.SeparableSearch
import Influence.Proofs.LinkingBound
import Influence.Proofs.ForbiddenPaths
import Influence.Proofs.Shift
import Influence.Proofs.Sound
import Influence.Proofs.LinkedShares
import Influence.Proofs.Attained
import Influence.Proofs.MassTolerance
import Influence.Proofs.ReportedMean
import Influence.Proofs.CompiledNames
import Influence.Proofs.DeclarationOrder
import Influence.Proofs.FailedCalls
import Influence.Proofs.Accepted
import Influence.Proofs.BuildErrors
import Influence.Proofs.ModelOptions
import Influence.Proofs.SearchSpace
import Influence.Proofs.PathIteration
import Influence.Proofs.CompatiblePaths
import Influence.Proofs.JsonText
import Influence.Proofs.LogCorrelation
import Influence.Proofs.Doubles
import Influence.Proofs.RoundingIntervals
import Influence.Proofs.NumberText
import Influence.Proofs.Unambiguous
import Influence.Proofs.LpRows
import Influence.Proofs.LpSections
import Influence.Proofs.LpText
import Influence.Proofs.TopologicalOrder
import Influence.Proofs.SearchAnswer
import Influence.Proofs.RiskMeasures
import Influence.Proofs.Binning
import Influence.Proofs.Conditioning
import Influence.Proofs.DecisionTables
import Influence.Proofs.AdmittedPaths
import Influence.Proofs.ForcedStates
import Influence.Proofs.UtilitySign
import Influence.Proofs.Rows
import Influence.Proofs.RowMajor
import Influence.Proofs.ConditionalTables
import Influence.Proofs.OwnUnits
import Influence.Proofs.Analysis
import Influence.Proofs.NestedArrays
import Influence.Proofs.Formulas
import Influence.Proofs.DoubleOrder
import Influence.Proofs.DoubleShares
import Influence.Proofs.CanonicalPoints
import Influence.Proofs.SolutionGrammar
import Influence.Proofs.PathCount
import Influence.Proofs.MatrixWrites
import Influence.Proofs.TableSizes
import Influence.Proofs.LazyCut
import Influence.Proofs.WeightedMoments
