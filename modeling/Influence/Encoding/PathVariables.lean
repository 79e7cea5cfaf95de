import Influence.Diagram.Evaluation
import Influence.Encoding.DecisionVariables
import Influence.Path.Constraint

/-!
# Path variables

One continuous variable between zero and one for every path that has positive
probability, agrees with the forced states and takes no forbidden combination.  It may be
positive only as far as every decision variable that its path selects is.

The probability cut asks that the paths carry the whole probability mass: a strategy that
needs a path without a variable then leaves mass uncovered and is infeasible.  Forcing a
chance node makes the mass within reach depend on the strategy, and the cut becomes an
upper bound.  The linking lower bound forces a path variable up to one when all its
decisions are taken; it is added unless path utilities have a known sign.
-/

namespace Influence

/-- How path variables are made. -/
structure PathVariableOptions (α : Type) where
  /-- Variables are named after their paths. -/
  names : Bool
  forbidden : List ForbiddenPath
  fixed : FixedPath
  /-- The probability cut is added at once. -/
  probabilityCut : Bool
  /-- What probabilities are multiplied by. -/
  scaleFactor : α
  /-- The linking lower bound; unset, it depends on the sign of the utilities. -/
  lowerBound : Option Bool

/-- The variables of the admissible paths, in path order. -/
structure PathVariables (α : Type) where
  vars : List (Path × Nat)
  scale : α
  cutSense : Sense
  /-- The position of the probability cut, if it was added at once. -/
  cut : Option Nat
  deriving Repr, DecidableEq

namespace PathVariables

variable {α : Type} [Scalar α]

/-- Some chance node is forced. -/
def forcesChance (d : Diagram α) : List (Nat × Nat) → Except (DiagramError α) Bool
  | [] => .ok false
  | (i, _) :: rest =>
    match d.nodes[i]? with
    | none => .error (.missingNode i)
    | some n => if n.kind = .chance then .ok true else forcesChance d rest

/-- The linking lower bound is added. -/
def bindsBelow (d : Diagram α) (o : PathVariableOptions α) : Bool :=
  o.lowerBound.getD (d.sign == .unrestricted)

/-- The name of a path's variable. -/
def variableName (p : Path) : String := "x_" ++ Text.joined "_" (p.map Nat.repr)

/-- A path that gets no variable. -/
inductive Omission where
  | impossible
  | forbidden
  deriving Repr, DecidableEq

/-- Why a path gets no variable, if it gets none. -/
def omission? (d : Diagram α) (forbidden : List ForbiddenPath) (p : Path) :
    Except (DiagramError α) (Option Omission) := do
  if (← d.probabilityOf p) == 0 then pure (some .impossible)
  else pure (if forbidden.any (·.covers p) then some .forbidden else none)

/-- Bounds a path variable by the decision variables that its path selects. -/
def link (d : Diagram α) (z : DecisionVariables) (p : Path) (x : Nat) :
    List Nat → LinearExpr α → ProgramM α (LinearExpr α)
  | [], linked => pure linked
  | node :: rest, linked =>
    match z.variableOn? node p with
    | none => throw (.diagram (.invalidOption (.noDecisionVariables (d.nameOf node))))
    | some v => do
      let _ ← Program.constrain (LinearExpr.var x - LinearExpr.var v) .le 0 false
      link d z p x rest (linked - LinearExpr.var v)

/-- Adds the variable of an admissible path with its constraints. -/
def addPath (d : Diagram α) (z : DecisionVariables) (o : PathVariableOptions α) (p : Path) :
    ProgramM α Nat := do
  let x ← Program.addContinuous 0 1 (if o.names then some (variableName p) else none)
  let linked ← link d z p x d.decision (LinearExpr.var x)
  if bindsBelow d o && !d.decision.isEmpty then
    let _ ← Program.constrain linked .ge (1 - Scalar.ofNat d.decision.length) false
  pure x

/-- Adds the variable of a path unless it is omitted. -/
def addUnlessOmitted (d : Diagram α) (z : DecisionVariables) (o : PathVariableOptions α)
    (p : Path) : ProgramM α (Option (Path × Nat)) := do
  match ← (omission? d o.forbidden p : Except (DiagramError α) _) with
  | some _ => pure none
  | none => pure (some (p, ← addPath d z o p))

/-- The probability mass that the variables carry, times the scale factor. -/
def mass (d : Diagram α) (x : PathVariables α) : Except (DiagramError α) (LinearExpr α) := do
  pure (LinearExpr.sum (← x.vars.mapM fun (p, v) => do
    pure (LinearExpr.term v ((← d.probabilityOf p) * x.scale))))

/-- Adds the variables of all admissible paths and, if asked for, the probability cut. -/
def build (d : Diagram α) (z : DecisionVariables) (o : PathVariableOptions α) :
    ProgramM α (PathVariables α) := do
  if !d.isGenerated then throw (.diagram .notGenerated)
  if !(Scalar.isFinite o.scaleFactor && decide (0 < o.scaleFactor)) then
    throw (.diagram (.invalidOption (.scaleFactor o.scaleFactor)))
  let cutSense : Sense :=
    if ← (forcesChance d o.fixed.entries : Except (DiagramError α) _) then .le else .eq
  let paths ← (Paths.withFixed d.states o.fixed : Except (DiagramError α) _)
  let vars ← paths.toList.filterMapM (addUnlessOmitted d z o)
  let x : PathVariables α := ⟨vars, o.scaleFactor, cutSense, none⟩
  if o.probabilityCut then
    let mass ← (x.mass d : Except (DiagramError α) _)
    let cut ← Program.constrain mass cutSense o.scaleFactor false
    pure { x with cut := some cut }
  else pure x

/-- Adds the probability cut as a lazy constraint. -/
def addLazyCut (d : Diagram α) (x : PathVariables α) : ProgramM α Nat := do
  let mass ← (x.mass d : Except (DiagramError α) _)
  Program.constrain mass x.cutSense x.scale true

/-- The number of path variables. -/
def size (x : PathVariables α) : Nat := x.vars.length

/-- The variable of a path. -/
def get? (x : PathVariables α) (p : Path) : Option Nat := x.vars.lookup p

/-- The paths whose variables are chosen in a solution. -/
def activePaths (x : PathVariables α) (s : Solution α) : List Path :=
  x.vars.filterMap fun (p, v) =>
    if DecisionVariables.threshold ≤ s.value v then some p else none

end PathVariables

end Influence
