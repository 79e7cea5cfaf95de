import Influence.Diagram.StateMatrix
import Influence.Path.Enumeration

/-!
# Influence diagrams

A diagram goes through three phases.  While it is being built, nodes are added by name.
Assembly orders them, chance and decision nodes first and parents before children, and
turns information sets into indices; tables can then be attached.  Generation fills
missing tables, settles the utility of a path and shifts it where a sign is asked for.

Chance and decision nodes have the indices below `states.length`; value nodes follow.
Operations are actions on a diagram that may fail (`DiagramM`): what an action did
before it failed stays done.
-/

namespace Influence

/-- How far a diagram has come. -/
inductive Phase where
  | building
  | assembled
  | generated
  deriving Repr, DecidableEq

/-- What is known about the sign of shifted path utilities. -/
inductive UtilitySign where
  /-- At least one everywhere. -/
  | positive
  /-- At most minus one everywhere. -/
  | negative
  | unrestricted
  deriving Repr, DecidableEq

/-- The name of a sign, capitalized as in log fields. -/
def UtilitySign.text : UtilitySign → String
  | .positive => "Positive"
  | .negative => "Negative"
  | .unrestricted => "Unrestricted"

/-- The utility of a path before it is shifted. -/
inductive PathUtility (α : Type) where
  /-- The sum of the utilities of the value nodes. -/
  | additive
  /-- Any function of the path. -/
  | custom (f : Path → α)

/-- An influence diagram over scalars `α`. -/
structure Diagram (α : Type) where
  nodes : List Node
  phase : Phase
  /-- Rows of probability tables must sum to one. -/
  strict : Bool
  /-- The parents of each node. -/
  informationSets : List (List Nat)
  /-- The state counts of the chance and decision nodes. -/
  states : List Nat
  chance : List Nat
  decision : List Nat
  value : List Nat
  /-- Probability tables of chance nodes and utility tables of value nodes. -/
  tables : List (Option (Tensor α))
  pathUtility : Option (PathUtility α)
  /-- What is added to every path utility. -/
  shift : α
  sign : UtilitySign

/-- Actions on a diagram that may fail. -/
abbrev DiagramM (α : Type) := ExceptT (DiagramError α) (StateM (Diagram α))

namespace Diagram

variable {α : Type}

/-- A diagram without nodes. -/
def empty [Scalar α] (strict : Bool) : Diagram α where
  nodes := []
  phase := .building
  strict
  informationSets := []
  states := []
  chance := []
  decision := []
  value := []
  tables := []
  pathUtility := none
  shift := 0
  sign := .unrestricted

/-! ## Looking things up -/

/-- The position of a name. -/
def position? (d : Diagram α) (name : String) : Option Nat :=
  d.nodes.findIdx? (·.name == name)

/-- The index of a node of an assembled diagram. -/
def indexOf (d : Diagram α) (name : String) : Except (DiagramError α) Nat :=
  if d.phase = .building then .error .notAssembled
  else match d.position? name with
    | some i => .ok i
    | none => .error (.unknownNode name)

/-- A node by name. -/
def nodeByName (d : Diagram α) (name : String) : Except (DiagramError α) Node :=
  match d.nodes.find? (·.name == name) with
  | some n => .ok n
  | none => .error (.unknownNode name)

/-- The number of states of a chance or decision node. -/
def numStates (d : Diagram α) (name : String) : Except (DiagramError α) Nat := do
  let n ← d.nodeByName name
  if n.isValue then .error (.wrongNodeKind name .chance .value) else pure n.numStates

/-- A node of an assembled diagram, with its index. -/
def lookup (d : Diagram α) (name : String) : Except (DiagramError α) (Nat × Node) := do
  let i ← d.indexOf name
  match d.nodes[i]? with
  | some n => pure (i, n)
  | none => .error (.unknownNode name)

/-- The name of a node, empty past the last index. -/
def nameOf (d : Diagram α) (index : Nat) : String := (d.nodes[index]?.map (·.name)).getD ""

/-- The names of a node's states. -/
def stateNames (d : Diagram α) (index : Nat) : List String :=
  (d.nodes[index]?.map (·.states)).getD []

/-- The state that a reference means at a node. -/
def stateOf (n : Node) (ref : StateRef) : Except (DiagramError α) Nat :=
  match ref.resolve? n.states with
  | some s => .ok s
  | none => .error (.unknownState n.name ref)

/-- The parents of a node. -/
def informationSet (d : Diagram α) (index : Nat) : List Nat := d.informationSets.getD index []

/-- The state counts of a node's parents. -/
def informationShape (d : Diagram α) (index : Nat) : List Nat :=
  (d.informationSet index).map fun p => d.states.getD p 0

/-- Arcs from parent to child, by child. -/
def arcs (d : Diagram α) : List (Nat × Nat) :=
  d.informationSets.zipIdx.flatMap fun (parents, child) => parents.map (·, child)

/-- Generation has happened. -/
def isGenerated (d : Diagram α) : Bool := d.phase == .generated

/-- The table attached to a node. -/
def table? (d : Diagram α) (index : Nat) : Option (Tensor α) := (d.tables[index]?).join

/-- The table of a node of the given kind. -/
def tableOf? (d : Diagram α) (kind : NodeKind) (index : Nat) : Option (Tensor α) :=
  d.nodes[index]?.bind fun n => if n.kind = kind then d.table? index else none

/-- The shape of a node's table: the parents' state counts and, unless it is a value node,
its own. -/
def expectedShape (d : Diagram α) (index : Nat) : List Nat :=
  d.informationShape index ++ match d.nodes[index]? with
    | some n => if n.isValue then [] else [n.numStates]
    | none => []

end Diagram

end Influence
