import Influence.Digest.Sha256
import Influence.Study.Resolution
import Influence.Study.Timestamp
import Influence.Study.Writing
import Influence.Text.Json.Writer

/-!
# Snapshots

A snapshot pins the exact inputs of a run by their hashes, so that a reported strategy can
be traced back to them.  Two runs with the same combined hash had the same inputs.
-/

namespace Influence

/-- Key figures of a diagram file. -/
structure DiagramSummary where
  chanceNodes : Nat
  decisionNodes : Nat
  valueNodes : Nat
  pathCount : Option Nat
  objective : String
  probabilityCut : Bool
  forbiddenPaths : Nat
  fixedNodes : Nat
  deriving Repr, DecidableEq

/-- The inputs of a run. -/
structure Snapshot where
  timestamp : String
  schemaVersion : String
  diagramHash : String
  diagramPath : Option String
  settingsHash : Option String
  settingsPath : Option String
  settingsSource : String
  combinedHash : String
  summary : DiagramSummary
  deriving Repr, DecidableEq

/-- The key figures of a file. -/
def DiagramFile.summary {α : Type} (f : DiagramFile α) : DiagramSummary where
  chanceNodes := f.countOf .chance
  decisionNodes := f.countOf .decision
  valueNodes := f.countOf .value
  pathCount := f.pathCount?
  objective := f.model.objective.kind.text
  probabilityCut := f.model.probabilityCut || f.model.lazyProbabilityCut
  forbiddenPaths := f.model.forbidden.length
  fixedNodes := f.model.fixed.length

namespace Snapshot

/-- The snapshot of a file, its text, and the text of the settings in force. -/
def ofInputs {α : Type} (timestamp : String) (f : DiagramFile α) (text : String)
    (path : Option String) (settings : SettingsPath) (settingsText : Option String) :
    Snapshot :=
  let diagramHash := Sha256.ofText text
  let settingsHash := settingsText.map Sha256.ofText
  { timestamp
    schemaVersion := Influence.schemaVersion
    diagramHash
    diagramPath := path
    settingsHash
    settingsPath := settings.path
    settingsSource := settings.source.text
    combinedHash := Sha256.ofText (diagramHash ++ ":" ++ settingsHash.getD "none")
    summary := f.summary }

/-- Both snapshots have the same inputs. -/
def agrees (s t : Snapshot) : Bool := s.combinedHash == t.combinedHash

/-- The characters of the combined hash that fit in its first twelve bytes. -/
def shortId (s : Snapshot) : String :=
  String.ofList (go 12 s.combinedHash.toList)
where
  go (bytes : Nat) : List Char → List Char
    | [] => []
    | c :: cs => if c.utf8Size ≤ bytes then c :: go (bytes - c.utf8Size) cs else []

/-! ## Snapshots as documents -/

open Document

/-- The document of key figures. -/
def summaryDocument (s : DiagramSummary) : Document :=
  .table [("chance_nodes", .integer s.chanceNodes),
    ("decision_nodes", .integer s.decisionNodes), ("value_nodes", .integer s.valueNodes),
    ("path_count", optional (fun n => .integer (n : Nat)) s.pathCount),
    ("objective", .text s.objective), ("probability_cut", .bool s.probabilityCut),
    ("forbidden_paths", .integer s.forbiddenPaths), ("fixed_nodes", .integer s.fixedNodes)]

/-- The document of a snapshot. -/
def document (s : Snapshot) : Document :=
  .table [("timestamp", .text s.timestamp), ("schema_version", .text s.schemaVersion),
    ("diagram_hash", .text s.diagramHash), ("diagram_path", optional .text s.diagramPath),
    ("settings_hash", optional .text s.settingsHash),
    ("settings_path", optional .text s.settingsPath),
    ("settings_source", .text s.settingsSource), ("combined_hash", .text s.combinedHash),
    ("summary", summaryDocument s.summary)]

/-- Key figures from a document. -/
def summary? (d : Document) : Option DiagramSummary := do
  let f ← d.fields? ["chance_nodes", "decision_nodes", "value_nodes", "path_count",
    "objective", "probability_cut", "forbidden_paths", "fixed_nodes"] false
  pure {
    chanceNodes := ← f.required "chance_nodes" (natural? maxWord)
    decisionNodes := ← f.required "decision_nodes" (natural? maxWord)
    valueNodes := ← f.required "value_nodes" (natural? maxWord)
    pathCount := ← f.nullable "path_count" (natural? (Word.count128 - 1))
    objective := ← f.required "objective" text?
    probabilityCut := ← f.required "probability_cut" bool?
    forbiddenPaths := ← f.required "forbidden_paths" (natural? maxWord)
    fixedNodes := ← f.required "fixed_nodes" (natural? maxWord) }

/-- The moment a snapshot was taken. -/
def moment? : Document → Option String
  | .text s => if Timestamp.isValid s then some s else none
  | _ => none

/-- A snapshot from a document. -/
def ofDocument? (d : Document) : Option Snapshot := do
  let f ← d.fields? ["timestamp", "schema_version", "diagram_hash", "diagram_path",
    "settings_hash", "settings_path", "settings_source", "combined_hash", "summary"] false
  pure {
    timestamp := ← f.required "timestamp" moment?
    schemaVersion := ← f.required "schema_version" text?
    diagramHash := ← f.required "diagram_hash" text?
    diagramPath := ← f.nullable "diagram_path" text?
    settingsHash := ← f.nullable "settings_hash" text?
    settingsPath := ← f.nullable "settings_path" text?
    settingsSource := ← f.required "settings_source" text?
    combinedHash := ← f.required "combined_hash" text?
    summary := ← f.required "summary" summary? }

/-- Reads a snapshot. -/
def read? (text : String) : Option Snapshot := (Json.read? text).bind ofDocument?

/-- Writes a snapshot. -/
def write (s : Snapshot) : String := Json.pretty s.document

end Snapshot

end Influence
