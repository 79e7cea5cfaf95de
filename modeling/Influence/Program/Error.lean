import Influence.Diagram.Error

/-!
# Causes of failure in programs and strategies

What can go wrong when a program is built, when a solution is read, and when a strategy
or a distribution is taken from it.  `SolverError` is kept apart: it is an answer of the
solver about a well-formed program.
-/

namespace Influence

/-- The levels that an operation admits. -/
inductive LevelRange where
  /-- From zero to one. -/
  | closed
  /-- Above zero, up to one. -/
  | positive
  deriving Repr, DecidableEq

/-- The range in brackets. -/
def LevelRange.text : LevelRange → String
  | .closed => "[0, 1]"
  | .positive => "(0, 1]"

/-- What is wrong with a line of a solution file. -/
inductive SolutionFault where
  /-- Not exactly two fields. -/
  | fields (line : String)
  /-- The second field is no numeral. -/
  | value (name : String)
  deriving Repr, DecidableEq

/-- The wording of a fault. -/
def SolutionFault.text : SolutionFault → String
  | .fields line => "expected `name value`, got `" ++ line ++ "`"
  | .value name => "invalid value for " ++ name ++ ": invalid float literal"

/-- Why a program could not be built, or nothing could be read from it. -/
inductive ProgramError (α : Type) where
  | infeasibleStrategy (node : String) (informationState : List Nat) (active : Nat)
  | invalidAlpha (alpha : α) (range : LevelRange)
  | emptyDistribution
  | unknownVariable (name : String)
  | solutionSize (expected actual : Nat)
  /-- The line is counted from one. -/
  | solutionParse (line : Nat) (fault : SolutionFault)
  | duplicateVariable (name : String)
  | diagram (e : DiagramError α)
  deriving Repr, DecidableEq

namespace ProgramError

variable {α : Type}

instance : MonadLift (Except (DiagramError α)) (Except (ProgramError α)) :=
  ⟨fun x => x.mapError .diagram⟩

/-- The number that reports give to a cause. -/
def code : ProgramError α → Nat
  | infeasibleStrategy .. => 200
  | invalidAlpha .. => 201
  | emptyDistribution => 202
  | unknownVariable .. => 210
  | solutionSize .. => 211
  | solutionParse .. => 212
  | duplicateVariable .. => 213
  | diagram e => e.code

/-- The message of a cause. -/
def message [Numeral α] : ProgramError α → String
  | infeasibleStrategy node informationState active =>
    "decision " ++ node ++ " at information state " ++ Text.indices informationState ++
      " has " ++ active.repr ++ " active states, expected exactly 1"
  | invalidAlpha alpha range =>
    "invalid alpha: must be in " ++ range.text ++ ", got " ++ Numeral.write alpha
  | emptyDistribution => "utility distribution is empty"
  | unknownVariable name => "unknown variable: " ++ name
  | solutionSize expected actual =>
    "solution has " ++ actual.repr ++ " values, model has " ++ expected.repr ++ " variables"
  | solutionParse line fault =>
    "solution parse error at line " ++ line.repr ++ ": " ++ fault.text
  | duplicateVariable name => "variable name already in use: " ++ name
  | diagram e => e.message

end ProgramError

/-- Why a solver gives no solution. -/
inductive SolverError where
  | infeasible
  /-- More assignments than the limit allows. -/
  | tooLarge (assignments limit : Nat)
  /-- The objective grows without bound in a variable. -/
  | unbounded (name : String)
  deriving Repr, DecidableEq

namespace SolverError

/-- The number that reports give to a cause. -/
def code : SolverError → Nat
  | infeasible => 300
  | tooLarge .. => 301
  | unbounded .. => 302

/-- The message of a cause. -/
def message : SolverError → String
  | infeasible => "model is infeasible"
  | tooLarge assignments limit =>
    "model too large for this solver: " ++ assignments.repr ++
      " binary assignments exceed the limit of " ++ limit.repr
  | unbounded name =>
    "model not supported by this solver: objective is unbounded in " ++ name

end SolverError

end Influence
