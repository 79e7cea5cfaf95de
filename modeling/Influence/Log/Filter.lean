import Influence.Log.Directive
import Influence.Log.Line

/-!
# Log filters

A filter is a list of directives, and an event passes for one of two reasons.  The directives
without a span, and without a value for a field, give every event a threshold: the one with the
longest component in front of the event's own decides, of two for the same component one that
asks for a field, and of two that ask for the same the later.  The directives with a span or a
field choose spans; inside a span that is chosen everything passes down to their level, from
whatever component.
-/

namespace Influence

/-- Where a kind of spans comes from. -/
structure SpanOrigin where
  name : String
  component : String
  level : LogLevel
  deriving Repr, DecidableEq

/-- Spans of whole runs. -/
def SpanOrigin.ofRun : SpanOrigin := ⟨"dp_core", "dp_core::logging::events", .info⟩

namespace LogDirective

/-- The directive chooses spans. -/
def isForSpans (d : LogDirective) : Bool := d.span.isSome || d.field.isSome

/-- The directive asks for a value. -/
def hasValue (d : LogDirective) : Bool := d.field.any (·.value.isSome)

/-- The directive gives a threshold. -/
def isThreshold (d : LogDirective) : Bool := d.span.isNone && !d.hasValue

/-- The directive gives a threshold to the events like this one. -/
def coversEvent (e : LogEvent) (d : LogDirective) : Bool :=
  d.isThreshold && e.source.startsWith d.component &&
    d.field.all fun f => e.fields.any (·.1 == f.name)

/-- The directive gives a threshold to the spans from an origin. -/
def coversOrigin (o : SpanOrigin) (d : LogDirective) : Bool :=
  d.isThreshold && o.component.startsWith d.component

/-- The directive may choose the spans like this one. -/
def isAboutSpan (o : SpanOrigin) (s : Span) (d : LogDirective) : Bool :=
  d.isForSpans && o.component.startsWith d.component && d.span.all (· == o.name) &&
    d.field.all fun f => s.declared.contains f.name

/-- The directive chooses the span, as its fields are now. -/
def chooses (o : SpanOrigin) (s : Span) (d : LogDirective) : Bool :=
  d.isAboutSpan o s &&
    d.field.all fun f => f.value.all fun rule => (s.text? f.name).any rule.accepts

/-- The same as another directive, but for the level. -/
def isRival (d other : LogDirective) : Bool :=
  d.component == other.component && d.span == other.span && d.field == other.field

/-- The name of the field that is asked for comes earlier, none before all. -/
def fieldPrecedes (d other : LogDirective) : Bool :=
  match d.field, other.field with
  | none, some _ => true
  | some f, some g => f.name < g.name
  | _, none => false

/-- The first of two directives decides, though the second is given later. -/
def outweighs (d later : LogDirective) : Bool :=
  later.component.length < d.component.length ||
    (later.component.length == d.component.length && later.fieldPrecedes d)

end LogDirective

/-- A list of directives. -/
abbrev LogFilter := List LogDirective

namespace LogFilter

/-- Reads directives between commas; without any, only errors pass. -/
def read? (s : String) : Option LogFilter :=
  match (s.splitOn ",").filter (· ≠ "") with
  | [] => some [.ofComponent "" .error]
  | directives => directives.mapM LogDirective.read?

/-- The directive text for this program's own components at one level. -/
def directive (level : LogLevel) : String :=
  "dp_core=" ++ level.text ++ ",dp_config=" ++ level.text

/-- The filter for this program's own components at one level. -/
def ofLevel (level : LogLevel) : LogFilter :=
  [.ofComponent "dp_core" level, .ofComponent "dp_config" level]

/-! ## Thresholds -/

/-- The more decisive of two directives, the later given second. -/
def decisive (found : Option LogDirective) (d : LogDirective) : Option LogDirective :=
  match found with
  | none => some d
  | some best => if best.outweighs d then some best else some d

/-- The threshold that some of the directives give; without any, nothing passes. -/
def threshold (f : LogFilter) (isMeant : LogDirective → Bool) : LogLevel :=
  ((f.filter isMeant).foldl decisive none).elim .off (·.level)

/-- An event passes by its threshold. -/
def admits (f : LogFilter) (e : LogEvent) : Bool :=
  f.threshold (·.coversEvent e) ≤ e.level && e.level ≠ .off

/-- Events at a level may pass, whatever their component. -/
def mayAdmit (f : LogFilter) (level : LogLevel) : Bool := f.any (·.level ≤ level)

/-! ## Spans -/

/-- Spans from an origin are opened. -/
def opens (f : LogFilter) (o : SpanOrigin) (s : Span) : Bool :=
  (f.any (·.hasValue) || f.mayAdmit o.level) &&
    (f.any (·.isAboutSpan o s) || f.threshold (·.coversOrigin o) ≤ o.level)

/-- The directives that no later one replaces. -/
def current : LogFilter → LogFilter
  | [] => []
  | d :: ds => if ds.any d.isRival then current ds else d :: current ds

/-- The level down to which everything passes inside a span. -/
def levelInside (f : LogFilter) (o : SpanOrigin) (s : Span) : LogLevel :=
  if f.opens o s then
    ((f.current.filter (·.chooses o s)).map (·.level)).foldl
      (fun a b => if b < a then b else a) .off
  else .off

/-- An event inside a span passes, for one reason or the other. -/
def passes (f : LogFilter) (inside : LogLevel) (e : LogEvent) : Bool :=
  inside ≤ e.level || f.admits e

end LogFilter

end Influence
