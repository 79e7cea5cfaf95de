import Influence.Study.Error

/-!
# Exit statuses

How a run ends, as a number for the calling program: up to two for the outcome of a run
that was completed, from ten on for input that the user can mend, and from twenty on for
everything else.  Every cause of failure belongs to one status.
-/

namespace Influence

/-- How a run ends. -/
inductive ExitStatus where
  | clean
  | infeasible
  /-- The solver declined the program. -/
  | solverLimit
  | arguments
  /-- A file is malformed or fails validation. -/
  | config
  /-- A diagram is rejected while it is built. -/
  | diagram
  /-- Options of a program or a solution file are rejected. -/
  | program
  | version
  | internal
  | io
  deriving Repr, DecidableEq

namespace ExitStatus

/-- Every status, in ascending order of its number. -/
def all : List ExitStatus :=
  [clean, infeasible, solverLimit, arguments, config, diagram, program, version, internal, io]

/-- The number of a status. -/
def number : ExitStatus → Nat
  | clean => 0
  | infeasible => 1
  | solverLimit => 2
  | arguments => 10
  | config => 11
  | diagram => 12
  | program => 13
  | version => 14
  | internal => 20
  | io => 21

/-- The name of a status in reports. -/
def name : ExitStatus → String
  | clean => "OK"
  | infeasible => "ERR_INFEASIBLE"
  | solverLimit => "ERR_SOLVER_LIMIT"
  | arguments => "ERR_ARGS"
  | config => "ERR_CONFIG"
  | diagram => "ERR_DIAGRAM"
  | program => "ERR_MODEL"
  | version => "ERR_VERSION"
  | internal => "ERR_INTERNAL"
  | io => "ERR_IO"

/-- The name with the number. -/
def text (s : ExitStatus) : String := s.name ++ " (" ++ s.number.repr ++ ")"

/-- The run did all that was asked. -/
def isSuccess (s : ExitStatus) : Bool := s == clean

/-- The status tells how a completed run came out. -/
def isOutcome (s : ExitStatus) : Bool := s.number < 10

/-- The input is at fault. -/
def isUserError (s : ExitStatus) : Bool := 10 ≤ s.number && s.number < 20

/-- Neither the run nor its input is at fault. -/
def isInternalError (s : ExitStatus) : Bool := 20 ≤ s.number

end ExitStatus

/-- The status of a run that ends with a refused file. -/
def FileError.status {α : Type} : FileError α → ExitStatus
  | .io .. => .io
  | .version .. => .version
  | _ => .config

/-- The status of a run that ends with a refused program. -/
def ProgramError.status {α : Type} : ProgramError α → ExitStatus
  | .diagram _ => .diagram
  | _ => .program

/-- The status of a run that ends without a solution. -/
def SolverError.status : SolverError → ExitStatus
  | .infeasible => .infeasible
  | .tooLarge .. | .unbounded .. => .solverLimit

end Influence
