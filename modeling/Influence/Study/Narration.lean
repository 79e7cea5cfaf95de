import Influence.Log.Event
import Influence.Program.Enumeration
import Influence.Study.Compiled

/-!
# What the components log

The events of building a diagram, compiling its program and searching for a solution, as far
as each gets.  They follow from the inputs alone: a stage that fails has logged what the parts
before the failure had to say.
-/

namespace Influence

open LogEvent

/-! ## Building -/

/-- The nodes are in order. -/
def Diagram.arrangedEvent {α : Type} (d : Diagram α) : LogEvent :=
  .plain .debug "dp_core::diagram" "arcs generated"
    [("chance", count d.chance.length), ("decision", count d.decision.length),
      ("value", count d.value.length)]

/-- The diagram is closed. -/
def Diagram.generatedEvent (d : Diagram Float) : LogEvent :=
  .plain .debug "dp_core::diagram" "diagram generated"
    [("translation", number d.shift), ("sign", .text d.sign.text)]

namespace DiagramFile

/-- The tables are attached. -/
def assembledEvent {α : Type} (f : DiagramFile α) (d : Diagram α) : LogEvent :=
  .plain .debug "dp_core::loader" "diagram assembled"
    [("nodes", count d.nodes.length), ("probability_tables", count f.probabilities.length),
      ("utility_tables", count f.utilities.length)]

/-- The events of building the diagram of a file. -/
def buildEvents (f : DiagramFile Float) : List LogEvent :=
  match f.arrange with
  | .error _ => []
  | .ok arranged =>
    arranged.arrangedEvent :: match arranged.after f.attachTables with
      | .error _ => []
      | .ok assembled =>
        f.assembledEvent assembled ::
          match assembled.after (Diagram.generate f.generate.options) with
          | .error _ => []
          | .ok generated => [generated.generatedEvent]

end DiagramFile

/-! ## Compiling -/

/-- The variables of one decision node are made. -/
def LocalVariables.event (l : LocalVariables) : LogEvent :=
  .plain .debug "dp_core::decision::variables" "decision variables"
    [("node", .text l.name), ("variables", count l.vars.length)]

namespace PathVariables

/-- How many of the paths in reach are omitted for a reason. -/
def omitted (d : Diagram Float) (o : PathVariableOptions Float) (reason : Omission) : Nat :=
  match (Paths.withFixed d.states o.fixed : Except (DiagramError Float) Paths) with
  | .error _ => 0
  | .ok paths => paths.toList.countP fun p =>
    match omission? d o.forbidden p with
    | .ok (some found) => found == reason
    | _ => false

/-- The path variables are made. -/
def event (d : Diagram Float) (o : PathVariableOptions Float) (x : PathVariables Float) :
    LogEvent :=
  .plain .debug "dp_core::decision::compatibility" "path compatibility variables"
    [("paths", count x.size), ("pruned", count (omitted d o .impossible)),
      ("forbidden", count (omitted d o .forbidden)), ("lower_bound", .bool (bindsBelow d o)),
      ("probability_cut", .bool o.probabilityCut)]

end PathVariables

namespace TailUtility

/-- The tail objective is made. -/
def events (d : Diagram Float) (x : PathVariables Float) (alpha : Float) : List LogEvent :=
  let source := "dp_core::decision::objective"
  match outcomes d x with
  | .error _ => []
  | .ok found =>
    match spread? (found.map (·.utility)) with
    | none => []
    | some s =>
      if !Scalar.isFinite s.gap then
        [.plain .debug source "cvar over a constant utility" [("utility", number s.low)]]
      else
        [.plain .debug source "cvar constraints"
          [("alpha", number alpha), ("big_m", number (s.high - s.low)),
            ("epsilon", number (s.gap / 2.0)), ("paths", count found.length)]]

end TailUtility

/-- The program is complete. -/
def Compiled.event (c : Compiled Float) : LogEvent :=
  let s := c.summary
  .plain .info "dp_core::pipeline" "model compiled"
    [("variables", count s.totalVariables), ("binaries", count s.binaries),
      ("constraints", count s.constraints), ("paths", count s.pathVariables),
      ("objective", .text c.objective.name)]

namespace DiagramFile

/-- The events of the objective, and the last one, of compiling a file. -/
def objectiveEvents (f : DiagramFile Float) (d : Diagram Float) (x : PathVariables Float) :
    List LogEvent :=
  match f.compile d with
  | .error _ => []
  | .ok c =>
    let tail := match f.model.objective.kind, f.model.objective.alpha with
      | .conditionalValueAtRisk, some alpha => TailUtility.events d x alpha
      | _, _ => []
    tail ++ [c.event]

/-- The events of compiling the program of a file. -/
def compileEvents (f : DiagramFile Float) (d : Diagram Float) : List LogEvent :=
  match f.pathVariableOptions d with
  | .error _ => []
  | .ok o =>
    match (DecisionVariables.build d o.names : ProgramM Float _).run.run .empty with
    | (.error _, _) => []
    | (.ok z, m) =>
      z.locals.map LocalVariables.event ++ match (PathVariables.build d z o).run.run m with
        | (.error _, _) => []
        | (.ok x, _) => x.event d o :: f.objectiveEvents d x

end DiagramFile

/-! ## Searching -/

namespace Search

/-- A candidate counts. -/
def Scored.event (s : Scored Float) : LogEvent :=
  .plain .trace "dp_core::model::brute_force" "feasible assignment"
    [("choice", .text (Text.indices s.choice)), ("score", number s.score)]

/-- The size of a search is known. -/
def sizeEvent (m : Program Float) : LogEvent :=
  let s := space m
  .plain .debug "dp_core::model::brute_force" "brute force enumeration"
    [("groups", count s.groups.length), ("free_binaries", count s.free.length),
      ("assignments", .text s.count.repr)]

/-- Every candidate that counts, in a search within its limit. -/
def candidateEvents (settings : SearchSettings Float) (m : Program Float) : List LogEvent :=
  let p := plan m
  if settings.maxAssignments < p.space.count then []
  else (p.accepted settings.tolerance p.space.choices).map Scored.event

end Search

end Influence
