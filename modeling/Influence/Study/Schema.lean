import Influence.Text.Document

/-!
# Shapes of documents

A catalogue of the records that files and reports are made of: the fields of each, which of
them must be present, and which other records they lead to.  Some records can be asked for by
name; `SchemaType.reachable` lists the others that belong to such a record.
-/

namespace Influence

/-- The records and enumerations of files and reports. -/
inductive SchemaType where
  | diagramFile
  | nodeSection
  | nodeKindName
  | tableValue
  | generateSection
  | stateReference
  | forbiddenSection
  | objectiveKind
  | objectiveSection
  | modelSection
  | settings
  | solverSettings
  | analysisSettings
  | checkReport
  | modelSummary
  | solveReport
  | objectiveReport
  | strategyReport
  | localStrategyReport
  | strategyRule
  | stateProbabilityReport
  | nodeDistribution
  | nodeKind
  | stateProbability
  | utilityReport
  | utilityPoint
  | utilityStatistics
  | riskMeasure
  deriving Repr, DecidableEq

/-- A field of a record. -/
structure SchemaField where
  name : String
  /-- The field must be present. -/
  isRequired : Bool
  /-- The record that its values are, or are made of. -/
  type : Option SchemaType
  deriving Repr, DecidableEq

namespace SchemaType

/-- Every record. -/
def all : List SchemaType :=
  [diagramFile, nodeSection, nodeKindName, tableValue, generateSection, stateReference,
    forbiddenSection, objectiveKind, objectiveSection, modelSection, settings, solverSettings,
    analysisSettings, checkReport, modelSummary, solveReport, objectiveReport, strategyReport,
    localStrategyReport, strategyRule, stateProbabilityReport, nodeDistribution, nodeKind,
    stateProbability, utilityReport, utilityPoint, utilityStatistics, riskMeasure]

/-- The name of a record. -/
def name : SchemaType → String
  | diagramFile => "DiagramFile"
  | nodeSection => "NodeSpec"
  | nodeKindName => "NodeKindSpec"
  | tableValue => "TensorValue"
  | generateSection => "GenerateSpec"
  | stateReference => "StateRefSpec"
  | forbiddenSection => "ForbiddenPathSpec"
  | objectiveKind => "ObjectiveKind"
  | objectiveSection => "ObjectiveSpec"
  | modelSection => "ModelSpec"
  | settings => "Settings"
  | solverSettings => "SolverSettings"
  | analysisSettings => "AnalysisSettings"
  | checkReport => "CheckReport"
  | modelSummary => "ModelSummary"
  | solveReport => "SolveReport"
  | objectiveReport => "ObjectiveReport"
  | strategyReport => "StrategyReport"
  | localStrategyReport => "LocalStrategyReport"
  | strategyRule => "StrategyRule"
  | stateProbabilityReport => "StateProbabilityReport"
  | nodeDistribution => "NodeDistribution"
  | nodeKind => "NodeKind"
  | stateProbability => "StateProbability"
  | utilityReport => "UtilityReport"
  | utilityPoint => "UtilityPoint"
  | utilityStatistics => "UtilityStatistics"
  | riskMeasure => "RiskMeasure"

/-- A field that must be present. -/
def need (name : String) : SchemaField := ⟨name, true, none⟩

/-- A field of records that must be present. -/
def needs (name : String) (type : SchemaType) : SchemaField := ⟨name, true, some type⟩

/-- A field that may be missing. -/
def may (name : String) : SchemaField := ⟨name, false, none⟩

/-- A field of records that may be missing. -/
def mayHave (name : String) (type : SchemaType) : SchemaField := ⟨name, false, some type⟩

/-- The fields of a record, in order; enumerations and plain values have none. -/
def fields : SchemaType → List SchemaField
  | diagramFile => [need "schema_version", may "description", needs "nodes" nodeSection,
      mayHave "probabilities" tableValue, mayHave "utilities" tableValue,
      mayHave "generate" generateSection, mayHave "model" modelSection]
  | nodeSection => [need "name", needs "kind" nodeKindName, may "information_set", may "states"]
  | generateSection => [may "default_probability", may "default_utility",
      may "positive_path_utility", may "negative_path_utility", may "strict_probabilities"]
  | forbiddenSection => [need "nodes", needs "states" stateReference]
  | objectiveSection => [mayHave "kind" objectiveKind, may "maximize", may "alpha"]
  | modelSection => [may "names", may "probability_cut", may "lazy_probability_cut",
      may "probability_scale_factor", may "lower_bound",
      mayHave "forbidden_paths" forbiddenSection, mayHave "fixed" stateReference,
      mayHave "objective" objectiveSection]
  | settings => [need "schema_version", mayHave "solver" solverSettings,
      mayHave "analysis" analysisSettings]
  | solverSettings => [may "max_assignments", may "tolerance"]
  | analysisSettings => [may "risk_levels", may "precision"]
  | checkReport => [need "schema_version", need "config_id", need "chance_nodes",
      need "decision_nodes", need "value_nodes", may "path_count", need "translation",
      needs "model" modelSummary]
  | modelSummary => [need "variables", need "binaries", need "constraints",
      need "decision_variables", need "compatibility_variables"]
  | solveReport => [need "schema_version", need "run_id", need "generated_at", need "config_id",
      need "solver", needs "model" modelSummary, needs "objective" objectiveReport,
      needs "strategy" strategyReport, needs "state_probabilities" stateProbabilityReport,
      needs "utility" utilityReport]
  | objectiveReport => [need "kind", need "maximize", may "alpha", need "value"]
  | strategyReport => [needs "decisions" localStrategyReport]
  | localStrategyReport => [need "node", need "information_set", needs "rules" strategyRule]
  | strategyRule => [need "information_state", need "choice"]
  | stateProbabilityReport => [needs "nodes" nodeDistribution]
  | nodeDistribution => [need "node", needs "kind" nodeKind, needs "states" stateProbability]
  | stateProbability => [need "state", need "probability"]
  | utilityReport => [needs "outcomes" utilityPoint, needs "statistics" utilityStatistics,
      needs "risk" riskMeasure]
  | utilityPoint => [need "utility", need "probability"]
  | utilityStatistics => [need "mean", need "std_dev", need "variance", need "skewness",
      need "excess_kurtosis", need "min", need "max"]
  | riskMeasure => [need "alpha", need "value_at_risk", need "conditional_value_at_risk"]
  | nodeKindName | tableValue | stateReference | objectiveKind | nodeKind => []

/-- The sentence that describes a record, where it has one. -/
def description? : SchemaType → Option String
  | diagramFile => some "Complete diagram definition."
  | settings => some "Complete settings file."
  | checkReport => some "Result of `dp-core check`."
  | solveReport => some "Full result of `dp-core solve` and `dp-core analyze`."
  | modelSummary => some "Size of a compiled model."
  | utilityStatistics => some "Summary statistics of a utility distribution."
  | riskMeasure => some "VaR and CVaR at one level."
  | _ => none

/-- The records that can be asked for, each with its entry in the list of them. -/
def listed : List (SchemaType × String) :=
  [(diagramFile, "Influence diagram definition file"),
    (settings, "Solver and analysis settings file"),
    (checkReport, "Validation summary of a diagram and its model"),
    (solveReport, "Strategy, state probabilities and risk of a solution"),
    (modelSummary, "Variable and constraint counts of a model"),
    (objectiveReport, "Objective kind and value"),
    (strategyReport, "Decision strategy with state names"),
    (stateProbabilityReport, "Marginal state distributions under a strategy"),
    (utilityReport, "Utility distribution, statistics and risk measures"),
    (utilityStatistics, "Moments and range of a utility distribution"),
    (riskMeasure, "Value-at-risk and CVaR at one level")]

/-- The record that can be asked for by a name. -/
def named? (name : String) : Option SchemaType :=
  (listed.map (·.1)).find? fun t => t.name == name

/-- The records that the fields of a record lead to. -/
def uses (t : SchemaType) : List SchemaType := t.fields.filterMap (·.type)

/-- The records that some records lead to in at most so many steps. -/
def within (steps : Nat) (ts : List SchemaType) : List SchemaType :=
  match steps with
  | 0 => ts
  | steps + 1 => ts ++ within steps (ts.flatMap uses)

/-- The other records that a record leads to; a shortest way to one passes none twice. -/
def reachable (t : SchemaType) : List SchemaType :=
  let found := within all.length [t]
  all.filter fun s => s ≠ t && found.contains s

/-- Texts in ascending order. -/
def ascending (names : List String) : List String := names.mergeSort fun a b => a ≤ b

/-- The names of the fields. -/
def properties (t : SchemaType) : List String := ascending (t.fields.map (·.name))

/-- The names of the fields that must be present. -/
def required (t : SchemaType) : List String :=
  ascending ((t.fields.filter (·.isRequired)).map (·.name))

/-- The names of the other records that a record leads to. -/
def definitions (t : SchemaType) : List String := ascending (t.reachable.map name)

/-- The outline of a record, by ascending keys. -/
def document (t : SchemaType) : Document :=
  let texts (ts : List String) : Document := .list (ts.map .text)
  .table <|
    [("$defs", texts t.definitions)] ++
    (t.description?.toList.map fun d => ("description", .text d)) ++
    [("properties", texts t.properties), ("required", texts t.required),
      ("title", .text t.name), ("type", .text "object")]

end SchemaType

end Influence
