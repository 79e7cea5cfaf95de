import Influence.Program.LpText
import Influence.Shell.Session
import Influence.Study.Narration
import Influence.Study.Report
import Influence.Study.Schema
import Influence.Study.Snapshot

/-!
# Commands

What each command does.  Those on a diagram read its file, find the settings, build the diagram
and compile its program; the rest of each is what it makes of the program.
-/

namespace Influence

open SessionM LogEvent

/-- The version of the program. -/
def programVersion : String := "0.1.0"

/-- The name of the program. -/
def programName : String := "dp-core"

/-! ## Loading -/

/-- A file with its settings, and its generated diagram. -/
structure Loaded where
  file : DiagramFile Float
  diagram : Diagram Float
  settings : Settings Float
  configId : String

/-- The text at a path. -/
def readText (path : String) : SessionM String := do
  match (← read).host.files.text path with
  | .ok text => pure text
  | .error reason => refusePath path reason

/-- The file at a path, with its text. -/
def readDiagram (path : String) : SessionM (DiagramFile Float × String) := do
  let text ← readText path
  match DiagramFile.read? (Format.ofPath path) text with
  | none => liftM (Except.error .parse : Except (FileError Float) _)
  | some f =>
    liftM f.validate
    pure (f, text)

/-- The settings in force, with the text of their file.  A path that was asked for must be a
file. -/
def readSettings : SessionM (SettingsPath × Settings Float × Option String) := do
  let setting ← read
  let host := setting.host
  match setting.options.settings with
  | some path =>
    if !host.files.isFile path then
      throw ⟨.io, 0, "settings file not found: " ++ path⟩
  | none => pure ()
  let found := host.files.resolve
    (.ofEnvironment setting.options.settings host.environment)
  let (settings, text) ← liftM (host.files.loadSettings found)
  match found.path with
  | some path =>
    milestone .info .settingsLoaded "settings loaded"
      [("path", .text path), ("source", .text found.source.text)]
  | none => milestone .debug .settingsDefault "using default settings" []
  pure (found, settings, text)

/-- Loads what a command on a diagram works with. -/
def load (path : String) : SessionM Loaded := do
  let (file, text) ← readDiagram path
  let (found, settings, settingsText) ← readSettings
  let snapshot := Snapshot.ofInputs (← read).host.moment file text (some path) found settingsText
  let configId := snapshot.shortId
  milestone .info .diagramLoaded "diagram file loaded"
    [("nodes", count file.nodes.length), ("config_id", .text configId)]
  noteAll .debug fun _ => file.buildEvents
  let diagram ← liftM file.build
  milestone .info .diagramGenerated "diagram generated"
    [("translation", number diagram.shift)]
  pure ⟨file, diagram, settings, configId⟩

/-- Compiles the program of what was loaded. -/
def compile (l : Loaded) : SessionM (Compiled Float) := do
  noteAll .info fun _ => l.file.compileEvents l.diagram
  let compiled ← liftM (l.file.compile l.diagram)
  milestone .info .modelCompiled "model compiled"
    [("variables", count compiled.summary.totalVariables),
      ("constraints", count compiled.summary.constraints),
      ("objective", .text compiled.objective.name)]
  pure compiled

/-! ## Checking and compiling -/

/-- Reports the sizes of a diagram and its program. -/
def runCheck (path : String) : SessionM Unit := do
  let l ← load path
  let report := (← compile l).check l.diagram l.configId
  match (← read).options.format with
  | .json => printDocument report.document
  | .summary =>
    printLine ("ok: " ++ report.chanceNodes.repr ++ " chance, " ++ report.decisionNodes.repr ++
      " decision, " ++ report.valueNodes.repr ++ " value nodes")
    printLine ("model: " ++ report.model.totalVariables.repr ++ " variables (" ++
      report.model.binaries.repr ++ " binary), " ++ report.model.constraints.repr ++
      " constraints")

/-- The size of a program, by ascending keys. -/
def sortedSummary (s : ModelSummary) : Document :=
  .table [("binaries", count s.binaries), ("compatibility_variables", count s.pathVariables),
    ("constraints", count s.constraints), ("decision_variables", count s.decisionVariables),
    ("variables", count s.totalVariables)]

/-- Prints the program in LP format, or writes it to a file. -/
def runCompile (path : String) (lp : Option String) : SessionM Unit := do
  let l ← load path
  let compiled ← compile l
  let text := LpText.render compiled.program
  match lp with
  | none => modify fun s => { s with stdout := s.stdout ++ text }
  | some out =>
    write out text
    milestone .info .lpWritten "LP model written" [("path", .text out)]
    match (← read).options.format with
    | .json => printDocument (.table [("config_id", .text l.configId), ("lp_path", .text out),
        ("model", sortedSummary compiled.summary), ("objective", .text compiled.objective.name),
        ("schema_version", .text schemaVersion)])
    | .summary => printLine ("wrote " ++ out)

/-! ## Solving and analyzing -/

/-- A report for people: the objective, the rules, and the distribution of utilities. -/
def summaryLines (r : SolveReport Float) : List String :=
  let plain := Layout.plain.text
  [r.objective.kind ++ " = " ++ plain r.objective.value] ++
  (r.strategy.decisions.flatMap fun l => l.rules.map fun rule =>
    if rule.informationState.isEmpty then l.node ++ ": " ++ rule.choice
    else l.node ++ " | " ++ Text.joined ", " rule.informationState ++ ": " ++ rule.choice) ++
  (r.utility.outcomes.map fun (u, p) => "  P(U = " ++ plain u ++ ") = " ++ plain p)

/-- Reports on a solution. -/
def report (l : Loaded) (compiled : Compiled Float) (solution : Solution Float)
    (solver : String) : SessionM Unit := do
  let strategy ← liftM (compiled.decisions.strategy solution)
  milestone .debug .strategyExtracted "strategy extracted"
    [("decisions", count strategy.locals.length)]
  let host := (← read).host
  let r ← liftM (compiled.analyze l.diagram solution l.settings.analysis
    ⟨host.runId, host.moment, l.configId, solver⟩)
  milestone .info .analysisFinished "analysis finished"
    [("objective", number r.objective.value), ("outcomes", count r.utility.outcomes.length)]
  let format := (← read).options.format
  milestone .debug .reportWritten "writing report"
    [("format", .text (if format = .json then "json" else "summary"))]
  match format with
  | .json => printDocument r.document
  | .summary => (summaryLines r).forM printLine

/-- The solver of this program. -/
def solverName : String := "brute-force"

/-- The tail objective is beyond enumeration. -/
def tailRefusal : String :=
  "model not supported by this solver: the CVaR objective needs a MILP solver; export it with " ++
    "`dp-core compile --lp` and read the result back with `dp-core analyze --solution`"

/-- Solves by enumeration and reports. -/
def runSolve (path : String) : SessionM Unit := do
  let l ← load path
  let compiled ← compile l
  match compiled.objective with
  | .tail _ => throw ⟨.solverLimit, 302, tailRefusal⟩
  | .expected _ =>
    milestone .info .solveStarted "solving" [("solver", .text solverName)]
    noteAll .debug fun _ => [Search.sizeEvent compiled.program]
    noteAll .trace fun _ => Search.candidateEvents l.settings.solver compiled.program
    let solution ← liftM (Search.solve l.settings.solver compiled.program)
    milestone .info .solveFinished "solved" [("objective", number solution.objective)]
    report l compiled solution solverName

/-- Reports on a solution that was found elsewhere. -/
def runAnalyze (path solutionPath : String) : SessionM Unit := do
  let l ← load path
  let compiled ← compile l
  let text ← readText solutionPath
  let solution ← liftM (Solution.ofText compiled.program text)
  milestone .info .solutionLoaded "solution loaded" [("path", .text solutionPath)]
  report l compiled solution "external"

/-! ## Information -/

/-- A text filled up with spaces to a width. -/
def padded (width : Nat) (s : String) : String :=
  s ++ String.ofList (List.replicate (width - s.length) ' ')

/-- Prints the list of schemas, all of them, or one. -/
def runSchema (request : SchemaRequest) : SessionM Unit := do
  let printSchema (d : Document) : SessionM Unit :=
    printLine (if request.isCompact then Json.compact d else Json.pretty d)
  if request.isList then
    SchemaType.listed.forM fun (t, description) =>
      printLine (padded 24 t.name ++ " " ++ description)
  else if request.isAll then
    printSchema (.table (SchemaType.listed.foldl
      (fun sorted (t, _) => Document.putSorted t.name t.document sorted) []))
  else match request.name with
    | none => throw ⟨.arguments, 0, "give a type name, --list or --all"⟩
    | some name =>
      match SchemaType.named? name with
      | none => throw ⟨.arguments, 0, "unknown schema type: " ++ name⟩
      | some t => printSchema t.document

/-- Prints the version. -/
def runVersion : SessionM Unit := do
  match (← read).options.format with
  | .json => printDocument (.table [("config_schema_version", .text schemaVersion),
      ("dp_core_version", .text programVersion), ("report_schema_version", .text schemaVersion)])
  | .summary => printLine (programName ++ " " ++ programVersion)

/-- Prints the words that a shell may complete. -/
def runCompletions : SessionM Unit :=
  (CommandName.all.map (·.text) ++ Switch.every.map fun s => "--" ++ s.long).forM printLine

/-- Runs a command. -/
def Command.run : Command → SessionM Unit
  | check diagram => runCheck diagram
  | compile diagram lp => runCompile diagram lp
  | solve diagram => runSolve diagram
  | analyze diagram solution => runAnalyze diagram solution
  | schema request => runSchema request
  | completions _ => runCompletions
  | version => runVersion

end Influence
