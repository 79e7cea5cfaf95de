import Influence.Diagram.Basic

/-!
# Evaluating paths

The probability of a path is the product of its chance nodes' table entries, and its
utility comes from the value nodes' tables or from a function of the path.  `rawUtility`
is without the shift that generation may have applied, `pathUtility` with it.
-/

namespace Influence.Diagram

variable {α : Type} [Scalar α]

/-- The states of a node's parents along a path. -/
def informationState (d : Diagram α) (index : Nat) (p : Path) : List Nat :=
  (d.informationSet index).map fun i => p.getD i 0

/-- The probability of a path in range. -/
def probabilityOf (d : Diagram α) (p : Path) : Except (DiagramError α) α := do
  let factors ← d.chance.mapM fun j =>
    match d.table? j with
    | some t => t.entry (d.informationState j p ++ [p.getD j 0])
    | none => pure 0
  pure (Scalar.product factors)

/-- The utility of a path in range, without the shift. -/
def utilityOf (d : Diagram α) (p : Path) : Except (DiagramError α) α :=
  match d.pathUtility with
  | none => .error .pathUtilityUnset
  | some (.custom f) => .ok (f p)
  | some .additive => do
    let tables := d.value.filterMap fun v => (d.table? v).map (v, ·)
    let terms ← tables.mapM fun (v, t) => t.entry (d.informationState v p)
    pure (Scalar.sum terms)

/-- Only a generated diagram evaluates paths, and only those in range. -/
def checkPath (d : Diagram α) (p : Path) : Except (DiagramError α) Unit :=
  if d.phase ≠ .generated then .error .notGenerated
  else if inRange d.states p then .ok ()
  else .error (.indexOutOfRange p d.states)

/-- The product of the chance nodes' probabilities along a path. -/
def pathProbability (d : Diagram α) (p : Path) : Except (DiagramError α) α := do
  d.checkPath p
  d.probabilityOf p

/-- The utility of a path without the shift. -/
def rawPathUtility (d : Diagram α) (p : Path) : Except (DiagramError α) α := do
  d.checkPath p
  d.utilityOf p

/-- The utility of a path with the shift. -/
def shiftedPathUtility (d : Diagram α) (p : Path) : Except (DiagramError α) α := do
  pure ((← d.rawPathUtility p) + d.shift)

end Influence.Diagram
