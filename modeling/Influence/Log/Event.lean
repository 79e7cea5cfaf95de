import Influence.Log.Level
import Influence.Text.Document
import Influence.Text.Quoted

/-!
# Log events

An event has a level, the component that it comes from, and named fields.  Events that tell
how a run gets on have a name of their own, and they carry the run and its stage; those of
the components are known by the component.
-/

namespace Influence

/-- The stages of a run. -/
inductive Stage where
  | init
  | assemble
  | compile
  | solve
  | extract
  | analyze
  | export
  deriving Repr, DecidableEq

namespace Stage

/-- Every stage, in the order of a run. -/
def all : List Stage := [init, assemble, compile, solve, extract, analyze, «export»]

/-- The name of a stage. -/
def text : Stage → String
  | init => "init"
  | assemble => "assemble"
  | compile => "compile"
  | solve => "solve"
  | extract => "extract"
  | analyze => "analyze"
  | «export» => "export"

end Stage

/-- The events of a run that have names. -/
inductive Milestone where
  | runStarted
  | runFinished
  | settingsLoaded
  | settingsDefault
  | configError
  | diagramLoaded
  | diagramGenerated
  | modelCompiled
  | solveStarted
  | solveFinished
  | solutionLoaded
  | strategyExtracted
  | analysisFinished
  | lpWritten
  | reportWritten
  | internalError
  deriving Repr, DecidableEq

namespace Milestone

/-- Every named event. -/
def all : List Milestone :=
  [runStarted, runFinished, settingsLoaded, settingsDefault, configError, diagramLoaded,
    diagramGenerated, modelCompiled, solveStarted, solveFinished, solutionLoaded,
    strategyExtracted, analysisFinished, lpWritten, reportWritten, internalError]

/-- The stage of a named event. -/
def stage : Milestone → Stage
  | runStarted | runFinished | settingsLoaded | settingsDefault | configError
  | internalError => .init
  | diagramLoaded | diagramGenerated => .assemble
  | modelCompiled => .compile
  | solveStarted | solveFinished => .solve
  | solutionLoaded | strategyExtracted => .extract
  | analysisFinished => .analyze
  | lpWritten | reportWritten => .export

/-- What happens, without the stage. -/
def what : Milestone → String
  | runStarted => "run_started"
  | runFinished => "run_finished"
  | settingsLoaded => "settings_loaded"
  | settingsDefault => "settings_default"
  | configError => "config_error"
  | diagramLoaded => "diagram_loaded"
  | diagramGenerated => "diagram_generated"
  | modelCompiled => "model_compiled"
  | solveStarted => "started"
  | solveFinished => "finished"
  | solutionLoaded => "solution_loaded"
  | strategyExtracted => "strategy"
  | analysisFinished => "finished"
  | lpWritten => "lp_written"
  | reportWritten => "report_written"
  | internalError => "internal_error"

/-- The name of an event: its stage and what happens. -/
def text (m : Milestone) : String := m.stage.text ++ "." ++ m.what

end Milestone

/-- A log event. -/
structure LogEvent where
  level : LogLevel
  /-- The component that the event comes from. -/
  source : String
  fields : List (String × Document)

namespace LogEvent

/-! ## Field values -/

/-- A count. -/
def count (n : Nat) : Document := .integer n

/-- A number; one that is not finite is shown as text. -/
def number (x : Float) : Document := if x.isFinite then .real x else .text (Layout.plain.text x)

/-- A text between quotes. -/
def quoted (s : String) : Document := .text (Text.debug s)

/-! ## Events -/

/-- An event of a component. -/
def plain (level : LogLevel) (source message : String) (fields : List (String × Document)) :
    LogEvent :=
  ⟨level, source, ("message", .text message) :: fields⟩

/-- An event with a name, of a run at some stage. -/
def named (level : LogLevel) (source name runId stage message : String)
    (fields : List (String × Document)) : LogEvent :=
  plain level source message
    ([("event", .text name), ("run_id", .text runId), ("stage", .text stage)] ++ fields)

end LogEvent

end Influence
