import Influence.Log.Filter
import Influence.Log.Trace
import Influence.Shell.Arguments
import Influence.Study.ExitStatus
import Influence.Study.FileTree
import Influence.Text.Json.Writer

/-!
# Sessions

A session is one run of the program: what it sees of the outside, what it has logged, printed
and written so far, and how it may fail.  It changes nothing by itself; `Outcome` says what the
program does in the end.
-/

namespace Influence

/-- What a run sees of the outside. -/
structure Host where
  environment : String → Option String
  files : FileTree
  /-- Whether a file can be written at a path, or why not. -/
  creation : String → Except String Unit
  runId : String
  /-- The moment of the run in reports. -/
  moment : String
  /-- The moment of log records. -/
  logMoment : String

/-- A failed run. -/
structure Failure where
  status : ExitStatus
  code : Nat
  message : String
  deriving Repr, DecidableEq

/-- The fixed surroundings of a session. -/
structure Setting where
  host : Host
  options : GlobalOptions
  filter : LogFilter
  /-- The level down to which the filter lets everything pass inside the run's span. -/
  inside : LogLevel

/-- What a session has done so far. -/
structure Session where
  /-- The logged events that pass the filter, the last one first. -/
  events : List LogEvent
  stdout : String
  /-- The files written, by path. -/
  written : List (String × String)

/-- Actions of a session. -/
abbrev SessionM := ReaderT Setting (ExceptT Failure (StateM Session))

namespace SessionM

instance : MonadLift (Except (FileError Float)) SessionM :=
  ⟨fun x => match x with
    | .ok a => pure a
    | .error e => throw ⟨e.status, e.code, e.message⟩⟩

instance : MonadLift (Except (ProgramError Float)) SessionM :=
  ⟨fun x => match x with
    | .ok a => pure a
    | .error e => throw ⟨e.status, e.code, e.message⟩⟩

instance : MonadLift (Except (DiagramError Float)) SessionM :=
  ⟨fun x => match x with
    | .ok a => pure a
    | .error e => throw ⟨.diagram, e.code, e.message⟩⟩

instance : MonadLift (Except SolverError) SessionM :=
  ⟨fun x => match x with
    | .ok a => pure a
    | .error e => throw ⟨e.status, e.code, e.message⟩⟩

/-- Fails on a path. -/
def refusePath {β : Type} (path reason : String) : SessionM β :=
  throw ⟨.io, 0, path ++ ": " ++ reason⟩

/-- Logs an event, if it passes. -/
def note (e : LogEvent) : SessionM Unit := do
  let setting ← read
  if setting.filter.passes setting.inside e then
    modify fun s => { s with events := e :: s.events }

/-- Logs events that are worked out only if one of their level, or a graver one, may pass. -/
def noteAll (level : LogLevel) (events : Unit → List LogEvent) : SessionM Unit := do
  if (← read).filter.mayAdmit level then (events ()).forM note

/-- The component of the program's own events. -/
def ownSource : String := "dp_core"

/-- Logs a named event. -/
def milestone (level : LogLevel) (m : Milestone) (message : String)
    (fields : List (String × Document)) : SessionM Unit := do
  note (.named level ownSource m.text (← read).host.runId m.stage.text message fields)

/-- Prints a line. -/
def printLine (line : String) : SessionM Unit :=
  modify fun s => { s with stdout := s.stdout ++ line ++ "\n" }

/-- Prints a document over several lines. -/
def printDocument (d : Document) : SessionM Unit := printLine (Json.pretty d)

/-- Writes a file. -/
def write (path text : String) : SessionM Unit := do
  match (← read).host.creation path with
  | .ok _ => modify fun s => { s with written := s.written ++ [(path, text)] }
  | .error reason => refusePath path reason

end SessionM

/-- What a run does in the end. -/
structure Outcome where
  exit : Nat
  stdout : String
  stderr : String
  written : List (String × String)
  deriving Repr, DecidableEq

namespace Failure

/-- The report of a failure, by ascending keys. -/
def document (f : Failure) : Document :=
  .table [
    ("error", .table [("code", .integer f.code), ("code_name", .text f.status.name),
      ("exit_code", .integer f.status.number), ("message", .text f.message)]),
    ("schema_version", .text "1.0.0"),
    ("status", .text "error")]

/-- The failure on one line for people. -/
def summary (f : Failure) : String := "error: " ++ f.message ++ " [" ++ f.status.text ++ "]"

/-- The event that a run ends with when it fails. -/
def milestone (f : Failure) : Milestone :=
  if f.status.isInternalError then .internalError
  else match f.status with
    | .config | .version => .configError
    | _ => .runFinished

end Failure

namespace Session

/-- A session that has not begun. -/
def start : Session := ⟨[], "", []⟩

/-- How a log begins: with the span of the run, unless the filter keeps it out. -/
def opening (filter : LogFilter) (runId : String) : List LogStep :=
  let span := Span.ofRun runId
  if filter.opens .ofRun span then [.enter span] else []

/-- The lines of a session's log. -/
def logLines (s : Session) (host : Host) (config : LogConfig) (filter : LogFilter) :
    List String :=
  let events := s.events.reverse
  match config.format with
  | .jsonl =>
    (LogTrace.ofSteps (opening filter host.runId ++ events.map .event)).jsonLines host.logMoment
  | .human =>
    events.map (·.humanLine (if config.timestamps then some host.logMoment else none))

/-- The log of a session. -/
def log (s : Session) (host : Host) (config : LogConfig) (filter : LogFilter) : String :=
  String.join ((s.logLines host config filter).map (· ++ "\n"))

end Session

end Influence
