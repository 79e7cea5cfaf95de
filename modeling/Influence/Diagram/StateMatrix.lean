import Influence.Diagram.Tensor

/-!
# Tables addressed by states

A `StateMatrix` is a table under construction for one node.  Its axes know the names of
their nodes and states, so entries and rows are set by state, by position or by name.
-/

namespace Influence

/-- One axis of a table: a node and its states. -/
structure Axis where
  node : String
  states : List String
  deriving Repr, DecidableEq

/-- A table under construction for one node. -/
structure StateMatrix (α : Type) where
  node : String
  kind : NodeKind
  axes : List Axis
  tensor : Tensor α
  deriving Repr, DecidableEq

namespace StateMatrix

variable {α : Type}

/-- A table with every entry the same. -/
def filled (node : String) (kind : NodeKind) (axes : List Axis) (x : α) : StateMatrix α :=
  ⟨node, kind, axes, Tensor.filled (axes.map (·.states.length)) x⟩

/-- The sizes of the axes. -/
def shape (m : StateMatrix α) : List Nat := m.tensor.shape

/-- The positions that a list of references stands for, one axis after the other. -/
def resolve (m : StateMatrix α) (refs : List StateRef) : Except (DiagramError α) (List Nat) :=
  refs.zipIdx.mapM fun (ref, k) =>
    match m.axes[k]? with
    | none => .error (.indexOutOfRange [k] m.shape)
    | some axis =>
      match ref.resolve? axis.states with
      | some i => .ok i
      | none => .error (.unknownState axis.node ref)

/-- Replaces the entry at raw positions. -/
def setIndex (m : StateMatrix α) (index : List Nat) (x : α) :
    Except (DiagramError α) (StateMatrix α) := do
  let tensor ← m.tensor.set index x
  pure { m with tensor }

/-- Replaces the entry at a full list of states. -/
def set (m : StateMatrix α) (refs : List StateRef) (x : α) :
    Except (DiagramError α) (StateMatrix α) := do
  m.setIndex (← m.resolve refs) x

/-- The entry at a full list of states. -/
def get (m : StateMatrix α) (refs : List StateRef) : Except (DiagramError α) α := do
  m.tensor.get (← m.resolve refs)

/-- Overwrites a stretch of entries. -/
def overwrite (data : Array α) (start : Nat) (xs : List α) : Array α :=
  (xs.zipIdx start).foldl (fun data (x, k) => data.setIfInBounds k x) data

/-- Replaces the row along the last axis at the given leading states. -/
def setRow (m : StateMatrix α) (leading : List StateRef) (values : List α) :
    Except (DiagramError α) (StateMatrix α) :=
  match m.shape.getLast? with
  | none => .error (.invalidOption (.scalarTable m.node))
  | some width =>
    if leading.length + 1 ≠ m.shape.length then
      .error (.indexOutOfRange [leading.length] m.shape)
    else if values.length ≠ width then
      .error (.dimensionMismatch m.node [width] [values.length])
    else do
      let index := (← m.resolve leading) ++ [0]
      let start ← m.tensor.offset index
      if m.tensor.size < start + width then .error (.missingEntry index m.shape)
      else pure { m with tensor.data := overwrite m.tensor.data start values }

end StateMatrix

end Influence
