import Influence.Log.Event
import Influence.Text.Json.Writer

/-!
# Log lines

An event as one line: a JSON object, or text for people.  Events happen inside spans, the
innermost first.  The run and the stage of a record are the event's own, else those of the
closest span that knows them.
-/

namespace Influence

/-! ## Fields -/

namespace LogFields

/-- The value as the text of a record: texts as they are, all else as JSON. -/
def valueText : Document → String
  | .text s => s
  | d => Json.compact d

/-- Fields by ascending name; of a repeated one the last value counts. -/
def collect (fields : List (String × Document)) : List (String × Document) :=
  fields.foldl (fun table (name, value) => Document.putSorted name value table) []

/-- The text of a field. -/
def text? (table : List (String × Document)) (name : String) : Option String :=
  (table.lookup name).map valueText

/-- The fields with other names. -/
def without (names : List String) (table : List (String × Document)) : List (String × Document) :=
  table.filter fun (name, _) => !names.contains name

end LogFields

/-! ## Spans -/

/-- A stretch of a run.  It takes only the fields that it was declared with. -/
structure Span where
  declared : List String
  fields : List (String × Document)

namespace Span

/-- The span of a whole run. -/
def ofRun (runId : String) : Span := ⟨["run_id"], [("run_id", .text runId)]⟩

/-- The text of a field. -/
def text? (s : Span) (name : String) : Option String := LogFields.text? s.fields name

end Span

/-- The run and the stage that something belongs to, as far as they are known. -/
structure Correlation where
  runId : Option String
  stage : Option String
  deriving Repr, DecidableEq

namespace Correlation

/-- Nothing is known. -/
def unknown : Correlation := ⟨none, none⟩

/-- Takes from fields what they tell, instead of what was known. -/
def absorb (c : Correlation) (fields : List (String × Document)) : Correlation :=
  let table := LogFields.collect fields
  ⟨(LogFields.text? table "run_id").or c.runId, (LogFields.text? table "stage").or c.stage⟩

/-- Takes what is missing from others, one after the other, until nothing is. -/
def complete (c : Correlation) : List Correlation → Correlation
  | [] => c
  | other :: others =>
    if c.runId.isSome && c.stage.isSome then c
    else complete ⟨c.runId.or other.runId, c.stage.or other.stage⟩ others

end Correlation

/-! ## Records -/

/-- What is written of an event. -/
structure LogRecord where
  time : String
  level : String
  event : String
  runId : Option String
  stage : Option String
  message : Option String
  /-- The other fields, by ascending name. -/
  fields : List (String × Document)

namespace LogRecord

/-- The names of fields that stand at the top of a record. -/
def lifted : List String := ["run_id", "stage", "event", "message"]

/-- The record as an object, without what is absent. -/
def document (r : LogRecord) : Document :=
  let optional (name : String) (value : Option String) : List (String × Document) :=
    value.toList.map fun t => (name, .text t)
  .table <|
    [("ts", .text r.time), ("level", .text r.level), ("event", .text r.event)] ++
    optional "run_id" r.runId ++ optional "stage" r.stage ++ optional "message" r.message ++
    (if r.fields.isEmpty then [] else [("fields", .table r.fields)])

/-- The record on one line. -/
def line (r : LogRecord) : String := Json.compact r.document

end LogRecord

namespace LogEvent

/-- The record of an event.  `scope` is what the open spans know, the innermost first. -/
def record (time : String) (scope : List Correlation) (e : LogEvent) : LogRecord :=
  let table := LogFields.collect e.fields
  let known := (Correlation.unknown.absorb e.fields).complete scope
  ⟨time, e.level.text, (LogFields.text? table "event").getD e.source, known.runId, known.stage,
    LogFields.text? table "message", LogFields.without LogRecord.lifted table⟩

/-- An event for people: the level, the message, and the details. -/
def humanLine (time : Option String) (e : LogEvent) : String :=
  let table := LogFields.collect e.fields
  let details := (LogFields.without LogRecord.lifted table).map fun (name, value) =>
    name ++ "=" ++ LogFields.valueText value
  Text.joined " " (time.toList ++ e.level.text.map Char.toUpper ::
    (LogFields.text? table "message").toList ++ details)

end LogEvent

end Influence
