import Influence.Encoding.Objective
import Influence.Study.Build
import Influence.Text.Document

/-!
# Compiled programs

The program of a diagram file: decision variables, path variables with their cut, and the
objective that the file asks for.
-/

namespace Influence

/-- A program with what its variables mean. -/
structure Compiled (α : Type) where
  program : Program α
  decisions : DecisionVariables
  paths : PathVariables α
  objective : Objective α
  maximize : Bool

/-- The size of a compiled program. -/
structure ModelSummary where
  totalVariables : Nat
  binaries : Nat
  constraints : Nat
  decisionVariables : Nat
  pathVariables : Nat
  deriving Repr, DecidableEq

/-- The document of a size. -/
def ModelSummary.document (s : ModelSummary) : Document :=
  .table [("variables", .integer s.totalVariables), ("binaries", .integer s.binaries),
    ("constraints", .integer s.constraints),
    ("decision_variables", .integer s.decisionVariables),
    ("compatibility_variables", .integer s.pathVariables)]

namespace DiagramFile

variable {α : Type} [Scalar α]

/-- Adds the path variables of a file, and its cut even when that is lazy. -/
def addPaths (f : DiagramFile α) (d : Diagram α) (o : PathVariableOptions α)
    (z : DecisionVariables) : ProgramM α (PathVariables α) := do
  let x ← PathVariables.build d z o
  if f.model.lazyProbabilityCut then
    let _ ← x.addLazyCut d
  pure x

/-- Adds what the objective of a file needs.  A tail objective without a level has none
that is admitted. -/
def addObjective (f : DiagramFile α) (d : Diagram α) (x : PathVariables α) :
    ProgramM α (Objective α) := do
  match f.model.objective.kind with
  | .expectedValue =>
    .expected <$> (ExpectedUtility.build d x : Except (DiagramError α) _)
  | .conditionalValueAtRisk =>
    match f.model.objective.alpha with
    | none => throw (.invalidAlpha Scalar.notANumber .positive)
    | some alpha => .tail <$> TailUtility.build d x alpha

/-- Builds the program of a file. -/
def program (f : DiagramFile α) (d : Diagram α) (o : PathVariableOptions α) :
    ProgramM α (DecisionVariables × PathVariables α × Objective α) := do
  let z ← DecisionVariables.build d o.names
  let x ← f.addPaths d o z
  let objective ← f.addObjective d x
  pure (z, x, objective)

/-- The compiled program of a file under given options of the path variables. -/
def compileWith (f : DiagramFile α) (d : Diagram α) (o : PathVariableOptions α) :
    Except (ProgramError α) (Compiled α) :=
  match (f.program d o).run.run .empty with
  | (.error e, _) => .error e
  | (.ok (z, x, objective), m) =>
    let maximize := f.model.objective.maximize
    .ok ⟨m.withObjective (Direction.ofFlag maximize) objective.expr, z, x, objective, maximize⟩

/-- The compiled program of a file. -/
def compile (f : DiagramFile α) (d : Diagram α) : Except (ProgramError α) (Compiled α) := do
  let o ← (f.pathVariableOptions d : Except (DiagramError α) _)
  f.compileWith d o

end DiagramFile

/-- The size of a compiled program. -/
def Compiled.summary {α : Type} [Scalar α] (c : Compiled α) : ModelSummary :=
  ⟨c.program.vars.size, c.program.binaryCount, c.program.constraints.size,
    c.decisions.size, c.paths.size⟩

end Influence
