import Influence.Outcome.Report
import Influence.Study.Compiled
import Influence.Study.Settings

/-!
# Reports of a study

A solution is analyzed by reading its strategy back and following that through the
diagram; a check reports sizes only.
-/

namespace Influence

/-- What identifies a run. -/
structure RunInfo where
  runId : String
  generatedAt : String
  configId : String
  solver : String
  deriving Repr, DecidableEq

/-- What the objective came to, in the diagram's own units. -/
structure ObjectiveReport (α : Type) where
  kind : String
  maximize : Bool
  alpha : Option α
  value : α
  deriving Repr, DecidableEq

/-- Everything about a solution. -/
structure SolveReport (α : Type) where
  run : RunInfo
  model : ModelSummary
  objective : ObjectiveReport α
  strategy : StrategyReport
  stateProbabilities : StateProbabilityReport α
  utility : UtilityReport α

/-- The sizes of a diagram and its program. -/
structure CheckReport (α : Type) where
  configId : String
  chanceNodes : Nat
  decisionNodes : Nat
  valueNodes : Nat
  pathCount : Option Nat
  shift : α
  model : ModelSummary
  deriving Repr, DecidableEq

variable {α : Type} [Scalar α]

/-- The report of a solution of a compiled program. -/
def Compiled.analyze [Root α] (c : Compiled α) (d : Diagram α) (s : Solution α)
    (settings : AnalysisSettings α) (run : RunInfo) :
    Except (ProgramError α) (SolveReport α) := do
  let strategy ← c.decisions.strategy s
  let probabilities ← (StateProbabilities.ofStrategy d strategy : Except (DiagramError α) _)
  let exact ← (Distribution.ofStrategy d strategy : Except (DiagramError α) _)
  let distribution := match settings.precision with
    | some decimals => exact.withPrecision decimals
    | none => exact
  pure {
    run
    model := c.summary
    objective := ⟨c.objective.name, c.maximize, c.objective.alpha?, c.objective.value s⟩
    strategy := StrategyReport.ofStrategy d strategy
    stateProbabilities := StateProbabilityReport.ofProbabilities d probabilities
    utility := ← UtilityReport.ofDistribution distribution settings.riskLevels }

/-- The report of a check. -/
def Compiled.check (c : Compiled α) (d : Diagram α) (configId : String) : CheckReport α where
  configId
  chanceNodes := d.chance.length
  decisionNodes := d.decision.length
  valueNodes := d.value.length
  pathCount := Paths.checkedProduct d.states
  shift := d.shift
  model := c.summary

/-! ## Reports as documents -/

/-- A count that may be too large to be known. -/
def countDocument : Option Nat → Document
  | some n => .integer n
  | none => .null

/-- The document of an objective; a level appears only where there is one. -/
def ObjectiveReport.document (r : ObjectiveReport Float) : Document :=
  .table <| [("kind", .text r.kind), ("maximize", .bool r.maximize)] ++
    (r.alpha.toList.map fun a => ("alpha", .real a)) ++ [("value", .real r.value)]

/-- The document of a solution. -/
def SolveReport.document (r : SolveReport Float) : Document :=
  .table [
    ("schema_version", .text schemaVersion),
    ("run_id", .text r.run.runId),
    ("generated_at", .text r.run.generatedAt),
    ("config_id", .text r.run.configId),
    ("solver", .text r.run.solver),
    ("model", r.model.document),
    ("objective", r.objective.document),
    ("strategy", r.strategy.document),
    ("state_probabilities", r.stateProbabilities.document),
    ("utility", r.utility.document)]

/-- The document of a check. -/
def CheckReport.document (r : CheckReport Float) : Document :=
  .table [
    ("schema_version", .text schemaVersion),
    ("config_id", .text r.configId),
    ("chance_nodes", .integer r.chanceNodes),
    ("decision_nodes", .integer r.decisionNodes),
    ("value_nodes", .integer r.valueNodes),
    ("path_count", countDocument r.pathCount),
    ("translation", .real r.shift),
    ("model", r.model.document)]

end Influence
