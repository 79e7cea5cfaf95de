import Influence.Diagram.Basic
import Influence.Number.Mass

/-!
# Attaching tables

Tables are attached to an assembled diagram, until it is generated.  Entries of
probability tables must be finite and not negative and, in a strict diagram, every row
must sum to one within the mass tolerance; entries of utility tables must be finite.
-/

namespace Influence.Diagram

variable {α : Type} [Scalar α]

/-- A table to attach: a plain one, or one that was made for a node. -/
inductive TableSource (α : Type) where
  | plain (t : Tensor α)
  | matrix (m : StateMatrix α)

/-- The index of a node whose table may be attached now. -/
def attachable (d : Diagram α) (name : String) (kind : NodeKind) :
    Except (DiagramError α) Nat := do
  match d.phase with
  | .building => .error .notAssembled
  | .generated => .error .alreadyGenerated
  | .assembled =>
    let (i, n) ← d.lookup name
    if n.kind = kind then pure i else .error (.wrongNodeKind name kind n.kind)

/-- The axes of a node's table. -/
def axes (d : Diagram α) (index : Nat) : List Axis :=
  let axis (i : Nat) : Axis := ⟨d.nameOf i, d.stateNames i⟩
  (d.informationSet index).map axis ++ match d.nodes[index]? with
    | some n => if n.isValue then [] else [axis index]
    | none => []

/-- A probability table of zeros. -/
def probabilityMatrix (d : Diagram α) (name : String) :
    Except (DiagramError α) (StateMatrix α) := do
  let i ← d.attachable name .chance
  pure (.filled name .chance (d.axes i) 0)

/-- A utility table of entries that are not allowed to stay: negative infinity. -/
def utilityMatrix (d : Diagram α) (name : String) :
    Except (DiagramError α) (StateMatrix α) := do
  let i ← d.attachable name .value
  pure (.filled name .value (d.axes i) (-Scalar.infinity))

/-- The table of a source, if it was made for this node and has the node's shape. -/
def unpack (d : Diagram α) (name : String) (index : Nat) (source : TableSource α) :
    Except (DiagramError α) (Tensor α) := do
  let t ← match source with
    | .plain t => pure t
    | .matrix m =>
      if m.node = name then pure m.tensor
      else .error (.invalidOption (.foreignMatrix m.node name))
  let expected := d.expectedShape index
  if t.shape = expected then pure t else .error (.dimensionMismatch name expected t.shape)

/-- The first row that does not sum to one, with its leading index and its sum. -/
def unnormalizedRow? (t : Tensor α) : Option (List Nat × α) :=
  t.rows.findSome? fun (index, row) =>
    let sum := Mass.total row
    if approxEq sum 1 massTolerance then none else some (index, sum)

/-- Attaches a table at an index. -/
def attach (index : Nat) (t : Tensor α) : DiagramM α Unit :=
  modify fun d => { d with tables := d.tables.set index (some t) }

/-- Attaches the probability table of a chance node. -/
def setProbabilities (name : String) (source : TableSource α) : DiagramM α Unit := do
  let d ← get
  let i ← d.attachable name .chance
  let t ← d.unpack name i source
  match t.data.toList.find? fun x => !Scalar.isFinite x || decide (x < 0) with
  | some x => throw (.negativeProbability name x)
  | none =>
    match if d.strict then unnormalizedRow? t else none with
    | some (index, sum) => throw (.unnormalizedProbability name index sum)
    | none => attach i t

/-- Attaches the utility table of a value node. -/
def setUtility (name : String) (source : TableSource α) : DiagramM α Unit := do
  let d ← get
  let i ← d.attachable name .value
  let t ← d.unpack name i source
  if t.data.all Scalar.isFinite then attach i t else throw (.nonFiniteUtility name)

end Influence.Diagram
