import Influence.Log.Line

/-!
# Log traces

A log while it is written: spans are entered and left, what they know is recorded as it becomes
known, and every event takes one line, in the scope of the spans that are open when it happens.
-/

namespace Influence

/-- What happens to a log. -/
inductive LogStep where
  | enter (span : Span)
  /-- Notes fields on the innermost span. -/
  | record (fields : List (String × Document))
  | leave
  | event (e : LogEvent)

/-- A span that was entered, and what it knows by now. -/
structure OpenSpan where
  declared : List String
  known : Correlation

namespace OpenSpan

/-- Notes fields; those that the span was not declared with are ignored. -/
def record (s : OpenSpan) (fields : List (String × Document)) : OpenSpan :=
  { s with known := s.known.absorb (fields.filter fun (name, _) => s.declared.contains name) }

/-- A span as it is entered. -/
def ofSpan (s : Span) : OpenSpan := record ⟨s.declared, .unknown⟩ s.fields

end OpenSpan

/-- The open spans, the innermost first, and the events so far, each with what the spans knew, the
last one first. -/
structure LogTrace where
  scope : List OpenSpan
  entries : List (List Correlation × LogEvent)

namespace LogTrace

/-- Nothing has happened. -/
def empty : LogTrace := ⟨[], []⟩

/-- Takes one step.  Without an open span there is nothing to note fields on or to leave. -/
def step (t : LogTrace) : LogStep → LogTrace
  | .enter span => { t with scope := .ofSpan span :: t.scope }
  | .record fields => { t with scope := t.scope.modifyHead (·.record fields) }
  | .leave => { t with scope := t.scope.tail }
  | .event e => { t with entries := (t.scope.map (·.known), e) :: t.entries }

/-- Takes steps one after the other. -/
def ofSteps (steps : List LogStep) : LogTrace := steps.foldl step empty

/-- The records of the events, in their order. -/
def records (t : LogTrace) (time : String) : List LogRecord :=
  t.entries.reverse.map fun (scope, e) => e.record time scope

/-- The records of the events, a line each. -/
def jsonLines (t : LogTrace) (time : String) : List String := (t.records time).map (·.line)

end LogTrace

end Influence
