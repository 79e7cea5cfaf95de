/-!
# Nodes

A node of an influence diagram before assembly: its name, what kind of quantity it
is, the names of the nodes it depends on or observes, and the names of its states.
`Node.fault?` holds the checks that need no other node.
-/

namespace Influence

/-- What a node stands for. -/
inductive NodeKind where
  /-- An uncertain event with a conditional probability table. -/
  | chance
  /-- A choice of the decision maker. -/
  | decision
  /-- A consequence with a utility table; it has no states. -/
  | value
  deriving Repr, DecidableEq

/-- The name of a kind. -/
def NodeKind.text : NodeKind → String
  | .chance => "chance"
  | .decision => "decision"
  | .value => "value"

/-- A state of a node, by position or by name. -/
inductive StateRef where
  | index (i : Nat)
  | name (s : String)
  deriving Repr, DecidableEq

/-- How messages show a reference. -/
def StateRef.text : StateRef → String
  | .index i => "#" ++ i.repr
  | .name s => s

/-- Where a reference leads in a list of state names. -/
def StateRef.resolve? (states : List String) : StateRef → Option Nat
  | .index i => if i < states.length then some i else none
  | .name s => states.findIdx? (· == s)

/-- A node before assembly. -/
structure Node where
  name : String
  kind : NodeKind
  informationSet : List String
  states : List String
  deriving Repr, DecidableEq

/-- What can be wrong with a node. -/
inductive NodeFault where
  | emptyName
  | statesOnValue
  | noStates
  | repeatedState
  | repeatedParent
  | ownParent
  /-- The information set names a value node. -/
  | valueParent (parent : String)
  deriving Repr, DecidableEq

/-- The wording of a fault. -/
def NodeFault.text : NodeFault → String
  | .emptyName => "name must be non-empty"
  | .statesOnValue => "value nodes have no states"
  | .noStates => "at least one state is required"
  | .repeatedState => "state names must be unique"
  | .repeatedParent => "information set lists a node twice"
  | .ownParent => "information set contains the node itself"
  | .valueParent parent => "value node " ++ parent ++ " cannot appear in an information set"

namespace Node

/-- Only value nodes have no place in a path. -/
def isValue (n : Node) : Bool := n.kind == .value

/-- The number of states. -/
def numStates (n : Node) : Nat := n.states.length

/-- The first fault of a node by itself. -/
def fault? (n : Node) : Option NodeFault :=
  if n.name = "" then some .emptyName
  else if n.isValue ∧ n.states ≠ [] then some .statesOnValue
  else if ¬ n.isValue ∧ n.states = [] then some .noStates
  else if ¬ n.states.Nodup then some .repeatedState
  else if ¬ n.informationSet.Nodup then some .repeatedParent
  else if n.name ∈ n.informationSet then some .ownParent
  else none

end Node

end Influence
