import Influence.Outcome.Risk
import Influence.Outcome.StateProbabilities
import Influence.Text.Document

/-!
# Reports

What is reported of a strategy: its rules with the names of states, how probable every
state is under it, and the utilities that may come of it.
-/

namespace Influence

/-- One rule of a strategy: the observed states and the choice. -/
structure StrategyRule where
  informationState : List String
  choice : String
  deriving Repr, DecidableEq

/-- The rules of one decision node. -/
structure LocalStrategyReport where
  node : String
  informationSet : List String
  rules : List StrategyRule
  deriving Repr, DecidableEq

/-- The rules of all decision nodes. -/
structure StrategyReport where
  decisions : List LocalStrategyReport
  deriving Repr, DecidableEq

/-- The distribution of one node. -/
structure NodeDistribution (α : Type) where
  node : String
  kind : NodeKind
  /-- Each state with its probability. -/
  states : List (String × α)
  deriving Repr, DecidableEq

/-- The distributions of all nodes with states. -/
structure StateProbabilityReport (α : Type) where
  nodes : List (NodeDistribution α)
  deriving Repr, DecidableEq

/-- A distribution of utilities with its statistics and risk. -/
structure UtilityReport (α : Type) where
  /-- Each utility with its probability. -/
  outcomes : List (α × α)
  statistics : UtilityStatistics α
  risk : List (RiskMeasure α)
  deriving Repr, DecidableEq

variable {α : Type}

namespace StrategyReport

/-- The name of a state of a node. -/
def stateName (d : Diagram α) (node state : Nat) : String := (d.stateNames node).getD state ""

/-- The rules of one decision node with names. -/
def ofLocal (d : Diagram α) (l : LocalStrategy) : LocalStrategyReport where
  node := l.name
  informationSet := l.informationSet.map d.nameOf
  rules := l.rules.map fun (informationState, choice) =>
    ⟨(informationState.zip l.informationSet).map fun (s, p) => stateName d p s,
      stateName d l.node choice⟩

/-- A strategy with names. -/
def ofStrategy (d : Diagram α) (s : Strategy) : StrategyReport := ⟨s.locals.map (ofLocal d)⟩

end StrategyReport

/-- State probabilities with names. -/
def StateProbabilityReport.ofProbabilities (d : Diagram α) (x : StateProbabilities α) :
    StateProbabilityReport α :=
  ⟨((x.names.zip x.rows).zip d.nodes).map fun ((name, row), n) =>
    ⟨name, n.kind, n.states.zip row⟩⟩

/-- A distribution with its statistics, and its risk at the given levels. -/
def UtilityReport.ofDistribution [Scalar α] [Root α] (x : Distribution α)
    (levels : List α) : Except (ProgramError α) (UtilityReport α) := do
  pure ⟨x.points, ← x.statistics, ← x.riskMeasures levels⟩

/-! ## Reports as documents -/

open Document

/-- A list of texts. -/
def textList (ts : List String) : Document := .list (ts.map .text)

/-- The document of a strategy report. -/
def StrategyReport.document (r : StrategyReport) : Document :=
  .table [("decisions", .list (r.decisions.map fun l => .table [
    ("node", .text l.node),
    ("information_set", textList l.informationSet),
    ("rules", .list (l.rules.map fun rule => .table [
      ("information_state", textList rule.informationState),
      ("choice", .text rule.choice)]))]))]

/-- The document of state probabilities. -/
def StateProbabilityReport.document (r : StateProbabilityReport Float) : Document :=
  .table [("nodes", .list (r.nodes.map fun n => .table [
    ("node", .text n.node),
    ("kind", .text n.kind.text),
    ("states", .list (n.states.map fun (state, p) => .table [
      ("state", .text state),
      ("probability", .real p)]))]))]

/-- The document of the moments and range of a distribution. -/
def UtilityStatistics.document (s : UtilityStatistics Float) : Document :=
  .table [("mean", .real s.mean), ("std_dev", .real s.stdDev),
    ("variance", .real s.variance), ("skewness", .real s.skewness),
    ("excess_kurtosis", .real s.excessKurtosis), ("min", .real s.min), ("max", .real s.max)]

/-- The document of both risk measures at one level. -/
def RiskMeasure.document (r : RiskMeasure Float) : Document :=
  .table [("alpha", .real r.alpha), ("value_at_risk", .real r.valueAtRisk),
    ("conditional_value_at_risk", .real r.conditionalValueAtRisk)]

/-- The document of a distribution with its statistics and risk. -/
def UtilityReport.document (r : UtilityReport Float) : Document :=
  .table [
    ("outcomes", .list (r.outcomes.map fun (u, p) => .table [
      ("utility", .real u), ("probability", .real p)])),
    ("statistics", r.statistics.document),
    ("risk", .list (r.risk.map (·.document)))]

end Influence
