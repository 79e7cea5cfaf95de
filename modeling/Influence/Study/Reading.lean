import Influence.Study.DiagramFile
import Influence.Study.Settings
import Influence.Text.Json.Reader
import Influence.Text.Toml.Reader

/-!
# Reading files

Diagram and settings files are JSON or TOML documents of one structure.  Every record may
leave out the fields that have defaults.  Tables may be nested only as deep as a JSON text
may be, less the records around them.
-/

namespace Influence

/-- The notation of a file. -/
inductive Format where
  | json
  | toml
  deriving Repr, DecidableEq

/-- The document of a text. -/
def Format.read? : Format → String → Option Document
  | .json => Json.read?
  | .toml => Toml.read?

/-- The file name of a path, without the directories in front. -/
def fileName (path : String) : String := (path.splitOn "/").getLast?.getD ""

/-- The extension of a path: what follows the last point of the file name, unless nothing
stands before that point. -/
def extension? (path : String) : Option String :=
  let name := (fileName path).toList
  let tail := (name.reverse.takeWhile (· ≠ '.')).reverse
  if name.length ≤ tail.length + 1 then none else some (String.ofList tail)

/-- Files ending in `.toml`, in any case, are TOML and all others JSON. -/
def Format.ofPath (path : String) : Format :=
  if (extension? path).map (fun e => e.map Char.toLower) = some "toml" then .toml else .json

namespace Document

/-- How deep lists and tables may be nested in a text. -/
def maxDepth : Nat := 127

/-- The greatest word. -/
def maxWord : Nat := Word.count64 - 1

/-- A nested array of at most so many levels. -/
def nested? : Nat → Document → Option (Nested Float)
  | depth + 1, list items => .array <$> items.mapM (nested? depth)
  | _, d => .scalar <$> d.float?

/-- A state reference: a whole number or a text. -/
def stateRef? : Document → Option StateRef
  | text s => some (.name s)
  | d => .index <$> d.natural? maxWord

/-- The content of a name that has none, where it must be given. -/
def isNothing : Format → Document → Bool
  | .json, null => true
  | .toml, list [] | .toml, table [] => true
  | _, _ => false

/-- A name, alone or as the only key of a table. -/
def variant? (format : Format) : Document → Option String
  | text s => some s
  | table [(s, content)] => if isNothing format content then some s else none
  | _ => none

/-- The known fields of a record.  In TOML, lists may go on behind the last field. -/
def record? (format : Format) (names : List String) (d : Document) : Option Fields :=
  d.fields? names (format = .toml)

/-- A kind of node. -/
def nodeKind? (format : Format) (d : Document) : Option NodeKind := do
  match ← d.variant? format with
  | "chance" => pure .chance
  | "decision" => pure .decision
  | "value" => pure .value
  | _ => failure

/-- A kind of objective. -/
def objectiveKind? (format : Format) (d : Document) : Option ObjectiveKind := do
  match ← d.variant? format with
  | "expected_value" => pure .expectedValue
  | "conditional_value_at_risk" => pure .conditionalValueAtRisk
  | _ => failure

/-- The declaration of a node. -/
def node? (format : Format) (d : Document) : Option Node := do
  let f ← d.record? format ["name", "kind", "information_set", "states"]
  pure {
    name := ← f.required "name" text?
    kind := ← f.required "kind" (nodeKind? format)
    informationSet := ← f.optional "information_set" (list? text?) []
    states := ← f.optional "states" (list? text?) [] }

/-- How the diagram is generated. -/
def generate? (format : Format) (d : Document) : Option GenerateSection := do
  let f ← d.record? format ["default_probability", "default_utility", "positive_path_utility",
    "negative_path_utility", "strict_probabilities"]
  pure {
    options := {
      defaultProbability := ← f.optional "default_probability" bool? true
      defaultUtility := ← f.optional "default_utility" bool? true
      positivePathUtility := ← f.optional "positive_path_utility" bool? false
      negativePathUtility := ← f.optional "negative_path_utility" bool? false }
    strictProbabilities := ← f.optional "strict_probabilities" bool? true }

/-- Forbidden combinations. -/
def forbidden? (format : Format) (d : Document) : Option ForbiddenSection := do
  let f ← d.record? format ["nodes", "states"]
  pure {
    nodes := ← f.required "nodes" (list? text?)
    states := ← f.required "states" (list? (list? stateRef?)) }

/-- The choice of an objective. -/
def objective? (format : Format) (d : Document) : Option (ObjectiveSection Float) := do
  let f ← d.record? format ["kind", "maximize", "alpha"]
  pure {
    kind := ← f.optional "kind" (objectiveKind? format) .expectedValue
    maximize := ← f.optional "maximize" bool? true
    alpha := ← f.nullable "alpha" float? }

/-- How the program is built. -/
def model? (format : Format) (d : Document) : Option (ModelSection Float) := do
  let f ← d.record? format ["names", "probability_cut", "lazy_probability_cut",
    "probability_scale_factor", "lower_bound", "forbidden_paths", "fixed", "objective"]
  pure {
    names := ← f.optional "names" bool? true
    probabilityCut := ← f.optional "probability_cut" bool? true
    lazyProbabilityCut := ← f.optional "lazy_probability_cut" bool? false
    scaleFactor := ← f.optional "probability_scale_factor" float? 1
    lowerBound := ← f.nullable "lower_bound" bool?
    forbidden := ← f.optional "forbidden_paths" (list? (forbidden? format)) []
    fixed := ← f.optional "fixed" (map? stateRef?) []
    objective := ← f.optional "objective" (objective? format) .default }

/-- Tables by node name; a file and a map stand around each. -/
def tables? : Document → Option (List (String × Nested Float)) :=
  map? (nested? (maxDepth - 2))

/-- A definition file. -/
def diagramFile? (format : Format) (d : Document) : Option (DiagramFile Float) := do
  let f ← d.record? format ["schema_version", "description", "nodes", "probabilities",
    "utilities", "generate", "model"]
  pure {
    schemaVersion := ← f.required "schema_version" text?
    description := ← f.nullable "description" text?
    nodes := ← f.required "nodes" (list? (node? format))
    probabilities := ← f.optional "probabilities" tables? []
    utilities := ← f.optional "utilities" tables? []
    generate := ← f.optional "generate" (generate? format) .default
    model := ← f.optional "model" (model? format) .default }

/-- Limits of the solver. -/
def solver? (format : Format) (d : Document) : Option (SearchSettings Float) := do
  let f ← d.record? format ["max_assignments", "tolerance"]
  let default : SearchSettings Float := .default
  pure {
    maxAssignments := ← f.optional "max_assignments" (natural? maxWord) default.maxAssignments
    tolerance := ← f.optional "tolerance" float? default.tolerance }

/-- What reports show. -/
def analysis? (format : Format) (d : Document) : Option (AnalysisSettings Float) := do
  let f ← d.record? format ["risk_levels", "precision"]
  let default : AnalysisSettings Float := .default
  pure {
    riskLevels := ← f.optional "risk_levels" (list? float?) default.riskLevels
    precision := ← f.nullable "precision" (natural? (Word.count32 - 1)) }

/-- A settings file. -/
def settings? (format : Format) (d : Document) : Option (Settings Float) := do
  let f ← d.record? format ["schema_version", "solver", "analysis"]
  pure {
    schemaVersion := ← f.required "schema_version" text?
    solver := ← f.optional "solver" (solver? format) .default
    analysis := ← f.optional "analysis" (analysis? format) .default }

end Document

/-- Reads a definition file. -/
def DiagramFile.read? (format : Format) (text : String) : Option (DiagramFile Float) :=
  (format.read? text).bind (Document.diagramFile? format)

/-- Reads a settings file. -/
def Settings.read? (format : Format) (text : String) : Option (Settings Float) :=
  (format.read? text).bind (Document.settings? format)

end Influence
