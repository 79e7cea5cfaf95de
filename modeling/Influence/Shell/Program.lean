import Influence.Shell.Commands

/-!
# The program

From arguments to an outcome.  A command line that cannot be read ends with the status of its
own; every other run is logged from beginning to end, and a failure is reported in the output
format that was asked for.
-/

namespace Influence

/-- The status of a command line that cannot be read. -/
def usageStatus : Nat := 2

/-- What the program can be asked to do. -/
def usage : String :=
  "Usage: " ++ programName ++ " [OPTIONS] <COMMAND>\n\nCommands:\n" ++
  String.join (CommandName.all.map fun c => "  " ++ c.text ++ "\n") ++ "\nOptions:\n" ++
  String.join ((Switch.every.filter fun s => s.owner?.isNone).map fun s =>
    "  --" ++ s.long ++ "\n")

/-- The outcome of a command line whose reading ended early. -/
def Halt.outcome : Halt → Outcome
  | usage .noCommand => ⟨usageStatus, "", Influence.usage, []⟩
  | usage fault => ⟨usageStatus, "", "error: " ++ fault.message ++ "\n", []⟩
  | help => ⟨0, Influence.usage, "", []⟩
  | version command =>
    let name := programName ++ command.elim "" fun c => "-" ++ c.text
    ⟨0, name ++ " " ++ programVersion ++ "\n", "", []⟩

namespace Session

open SessionM LogEvent

/-- Runs a command and logs its beginning and its end. -/
def perform (command : Command) : SessionM Unit := do
  milestone .debug .runStarted "run started" [("version", .text programVersion)]
  try
    command.run
    milestone .debug .runFinished "run finished" []
  catch f =>
    milestone .error f.milestone f.message
      [("code", count f.code), ("exit_code", count f.status.number)]
    if (← read).options.format = .json then printLine (Json.compact f.document)
    throw f

end Session

/-- The variable that may hold a filter of its own. -/
def filterVariable : String := "RUST_LOG"

/-- The filter of a run: the one that the environment gives, if it can be read. -/
def logFilter (host : Host) (config : LogConfig) : LogFilter :=
  ((host.environment filterVariable).bind LogFilter.read?).getD (.ofLevel config.level)

/-- Runs a command with its options. -/
def Command.outcome (host : Host) (options : GlobalOptions) (command : Command) : Outcome :=
  let config := LogConfig.resolve host.environment
    (LogLevel.ofFlags options.verbose options.quiet) options.logFormat
  let filter := logFilter host config
  let inside := filter.levelInside .ofRun (.ofRun host.runId)
  let (result, session) :=
    ((Session.perform command).run ⟨host, options, filter, inside⟩).run.run .start
  let log := session.log host config filter
  match result with
  | .ok _ => ⟨ExitStatus.clean.number, session.stdout, log, session.written⟩
  | .error f =>
    let summary := if options.format = .summary then f.summary ++ "\n" else ""
    ⟨f.status.number, session.stdout, log ++ summary, session.written⟩

/-- Runs the program. -/
def runProgram (host : Host) (args : List String) : Outcome :=
  match readArguments (host.environment "DP_SETTINGS") args with
  | .error halt => halt.outcome
  | .ok (options, command) => command.outcome host options

/-! ## What a run looks at -/

/-- The variables that a run may look up. -/
def consultedVariables : List String :=
  SettingsPlaces.names ++ [LogConfig.levelVariable, LogConfig.formatVariable, filterVariable]

/-- The files that a command reads. -/
def Command.inputs : Command → List String
  | check diagram | compile diagram _ | solve diagram => [diagram]
  | analyze diagram solution => [diagram, solution]
  | schema _ | completions _ | version => []

/-- The paths that a run may look up. -/
def consultedPaths (environment : String → Option String) (args : List String) : List String :=
  match readArguments (environment "DP_SETTINGS") args with
  | .error _ => []
  | .ok (options, command) => match command.inputs with
    | [] => []
    | inputs => inputs ++ (SettingsPlaces.ofEnvironment options.settings environment).candidates

end Influence
