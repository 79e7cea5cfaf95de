import Influence.Diagram.Evaluation

/-!
# Generation

Generation closes a diagram: chance nodes without a table become uniform, value nodes
without one become zero, the path utility is settled, and where a sign is asked for
every path utility is shifted so that the least one is one, or the greatest minus one.
-/

namespace Influence

/-- What generation may fill in and guarantee. -/
structure GenerateOptions where
  /-- Chance nodes without a table are uniform. -/
  defaultProbability : Bool
  /-- Value nodes without a table are zero, and path utilities are sums. -/
  defaultUtility : Bool
  positivePathUtility : Bool
  negativePathUtility : Bool
  deriving Repr, DecidableEq

namespace Diagram

variable {α : Type} [Scalar α]

/-- Options that exclude each other. -/
def optionFault? (o : GenerateOptions) : Option (OptionFault α) :=
  if o.positivePathUtility && o.negativePathUtility then some .bothSigns
  else if (o.positivePathUtility || o.negativePathUtility) && !o.defaultUtility then
    some .signWithoutUtility
  else none

/-- The least and the greatest path utility; infinities where there is no path. -/
def utilityRange (d : Diagram α) : Except (DiagramError α) (α × α) :=
  Paths.foldM (Coordinate.ofStates d.states .empty)
    (fun (low, high) p => do
      let u ← d.utilityOf p
      pure (Scalar.smaller low u, Scalar.larger high u))
    (Scalar.infinity, -Scalar.infinity)

/-- Fills a missing probability table with the uniform distribution. -/
def fillProbability (o : GenerateOptions) (j : Nat) : DiagramM α Unit := do
  let d ← get
  if (d.table? j).isNone then
    if !o.defaultProbability then throw (.missingProbabilities (d.nameOf j))
    let uniform := 1 / Scalar.ofNat (d.stateNames j).length
    set { d with tables := d.tables.set j (some (.filled (d.expectedShape j) uniform)) }

/-- Fills a missing utility table with zeros. -/
def fillUtility (v : Nat) : DiagramM α Unit := do
  let d ← get
  if (d.table? v).isNone then
    set { d with tables := d.tables.set v (some (.filled (d.expectedShape v) 0)) }

/-- Settles the path utility: the sum over value nodes, or nothing yet. -/
def settleUtility (o : GenerateOptions) : DiagramM α Unit := do
  if o.defaultUtility then
    let d ← get
    d.value.forM fillUtility
    modify fun d => { d with pathUtility := some .additive }
  else
    modify fun d => { d with pathUtility := none }

/-- Shifts path utilities to the sign asked for. -/
def settleSign (o : GenerateOptions) : DiagramM α Unit := do
  modify fun d => { d with shift := 0, sign := .unrestricted }
  if o.positivePathUtility || o.negativePathUtility then
    let d ← get
    let (low, high) ← d.utilityRange
    if o.positivePathUtility then
      set { d with shift := 1 - low, sign := .positive }
    else
      set { d with shift := -1 - high, sign := .negative }

/-- Closes an assembled diagram. -/
def generate (o : GenerateOptions) : DiagramM α Unit := do
  let d ← get
  match d.phase with
  | .building => throw .notAssembled
  | .generated => throw .alreadyGenerated
  | .assembled =>
    match optionFault? o with
    | some fault => throw (.invalidOption fault)
    | none =>
      d.chance.forM (fillProbability o)
      settleUtility o
      settleSign o
      modify fun d => { d with phase := .generated }

/-- Replaces the path utility of a generated diagram, which is then used without a
shift. -/
def setPathUtility (u : PathUtility α) : DiagramM α Unit := do
  let d ← get
  if d.phase ≠ .generated then throw .notGenerated
  set { d with pathUtility := some u, shift := 0, sign := .unrestricted }

end Diagram

end Influence
