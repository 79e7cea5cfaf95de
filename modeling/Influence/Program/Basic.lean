import Influence.Program.LinearExpr
import Influence.Program.Error

/-!
# Mixed-integer linear programs

A program is a list of variables, each continuous with bounds or binary, a list of
linear constraints, and a linear objective to maximize or minimize.  Constraints are
kept with their constant on the right and their terms compact.  A constraint may be
marked lazy: a solver may leave it out until a candidate breaks it.

Building actions (`ProgramM`) may fail on a name that is taken; what they added before
stays.
-/

namespace Influence

/-- The domain of a variable. -/
inductive VarKind where
  | continuous
  | binary
  deriving Repr, DecidableEq

/-- The name of a domain. -/
def VarKind.text : VarKind → String
  | .continuous => "continuous"
  | .binary => "binary"

/-- A variable of a program. -/
structure Variable (α : Type) where
  kind : VarKind
  lower : α
  upper : α
  name : Option String
  deriving Repr, DecidableEq

/-- How the two sides of a constraint compare. -/
inductive Sense where
  | le
  | ge
  | eq
  deriving Repr, DecidableEq

/-- The sign of a comparison. -/
def Sense.symbol : Sense → String
  | .le => "<="
  | .ge => ">="
  | .eq => "="

/-- `expr (sense) rhs`. -/
structure Constraint (α : Type) where
  expr : LinearExpr α
  sense : Sense
  rhs : α
  isLazy : Bool
  deriving Repr, DecidableEq

/-- Which way the objective is pushed. -/
inductive Direction where
  | maximize
  | minimize
  deriving Repr, DecidableEq

/-- The name of a direction. -/
def Direction.text : Direction → String
  | .maximize => "maximize"
  | .minimize => "minimize"

/-- The direction that a flag asks for. -/
def Direction.ofFlag (maximize : Bool) : Direction := if maximize then .maximize else .minimize

/-- A mixed-integer linear program. -/
structure Program (α : Type) where
  vars : Array (Variable α)
  constraints : Array (Constraint α)
  direction : Direction
  objective : LinearExpr α
  deriving Repr, DecidableEq

/-- Actions that build a program and may fail. -/
abbrev ProgramM (α : Type) := ExceptT (ProgramError α) (StateM (Program α))

namespace Constraint

variable {α : Type} [Scalar α]

/-- The left side minus the right side. -/
def slack (c : Constraint α) (values : Array α) : α := c.expr.evaluate values - c.rhs

/-- The constraint holds up to a tolerance. -/
def isSatisfied (c : Constraint α) (values : Array α) (tolerance : α) : Bool :=
  match c.sense with
  | .le => c.slack values ≤ tolerance
  | .ge => -tolerance ≤ c.slack values
  | .eq => Scalar.abs (c.slack values) ≤ tolerance

end Constraint

/-- A check that an assignment fails. -/
inductive Violation where
  /-- A variable leaves its bounds, or a binary one is not whole. -/
  | bound (v : Nat)
  | constraint (i : Nat)
  deriving Repr, DecidableEq

namespace Program

variable {α : Type} [Scalar α]

/-- The program without variables. -/
def empty : Program α := ⟨#[], #[], .maximize, .zero⟩

/-- The variable that carries a name. -/
def find? (m : Program α) (name : String) : Option Nat :=
  m.vars.findIdx? (·.name == some name)

/-- The name that a variable has in exported files: its own, or `v` and its number. -/
def exportName (m : Program α) (v : Nat) : String :=
  ((m.vars[v]?).bind (·.name)).getD ("v" ++ v.repr)

/-- The number of binary variables. -/
def binaryCount (m : Program α) : Nat := m.vars.countP (·.kind == .binary)

/-- A variable is binary. -/
def isBinary (m : Program α) (v : Nat) : Bool :=
  (m.vars[v]?).any (·.kind == .binary)

/-- A variable is continuous. -/
def isContinuous (m : Program α) (v : Nat) : Bool :=
  (m.vars[v]?).any (·.kind == .continuous)

/-! ## Building -/

/-- Adds a variable under a name that is still free. -/
def addVariable (v : Variable α) : ProgramM α Nat := do
  let m ← get
  match v.name with
  | some name => if (m.find? name).isSome then throw (.duplicateVariable name)
  | none => pure ()
  set { m with vars := m.vars.push v }
  pure m.vars.size

/-- Adds a continuous variable. -/
def addContinuous (lower upper : α) (name : Option String) : ProgramM α Nat :=
  addVariable ⟨.continuous, lower, upper, name⟩

/-- Adds a binary variable. -/
def addBinary (name : Option String) : ProgramM α Nat :=
  addVariable ⟨.binary, 0, 1, name⟩

/-- A constraint with the constant of its left side moved to the right. -/
def normalized (expr : LinearExpr α) (sense : Sense) (rhs : α) (isLazy : Bool) :
    Constraint α :=
  ⟨expr.compact.addConstant (-expr.constant), sense, rhs - expr.constant, isLazy⟩

/-- The program with one more constraint. -/
def withConstraint (m : Program α) (c : Constraint α) : Program α :=
  { m with constraints := m.constraints.push c }

/-- Adds a constraint and gives its position. -/
def constrain (expr : LinearExpr α) (sense : Sense) (rhs : α) (isLazy : Bool) :
    ProgramM α Nat := do
  let m ← get
  set (m.withConstraint (normalized expr sense rhs isLazy))
  pure m.constraints.size

/-- The program with another objective. -/
def withObjective (m : Program α) (direction : Direction) (expr : LinearExpr α) : Program α :=
  { m with direction, objective := expr.compact }

/-! ## Checking assignments -/

/-- A variable's value is inside its bounds, and whole where it is binary. -/
def Variable.admits (v : Variable α) (x tolerance : α) : Bool :=
  let isWhole := v.kind == .continuous || decide (Scalar.abs (x - Scalar.round x) ≤ tolerance)
  decide (v.lower - tolerance ≤ x) && decide (x ≤ v.upper + tolerance) && isWhole

/-- Every check that an assignment fails: variables first, then constraints. -/
def violations (m : Program α) (values : Array α) (tolerance : α) : List Violation :=
  let bounds := m.vars.toList.zipIdx.filterMap fun (v, i) =>
    let x := values.getD i Scalar.notANumber
    if Variable.admits v x tolerance then none else some (.bound i)
  let broken := m.constraints.toList.zipIdx.filterMap fun (c, i) =>
    if c.isSatisfied values tolerance then none else some (.constraint i)
  bounds ++ broken

/-- An assignment of the right length that fails no check. -/
def isFeasible (m : Program α) (values : Array α) (tolerance : α) : Bool :=
  values.size == m.vars.size && (m.violations values tolerance).isEmpty

end Program

end Influence
