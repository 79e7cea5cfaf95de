import Influence.Diagram.Basic

/-!
# Decision strategies

A strategy chooses a state of every decision node for every state of the information it
observes.  The choices of one node are listed in lexicographic order of its information
states.
-/

namespace Influence

/-- The choices of one decision node. -/
structure LocalStrategy where
  node : Nat
  name : String
  informationSet : List Nat
  /-- The state counts of the information set. -/
  shape : List Nat
  /-- One choice per information state, in lexicographic order. -/
  choices : List Nat
  deriving Repr, DecidableEq

namespace LocalStrategy

/-- The choices of a named decision node, one per information state. -/
def ofChoices {α : Type} (d : Diagram α) (name : String) (choices : List Nat) :
    Except (DiagramError α) LocalStrategy := do
  let (node, n) ← d.lookup name
  if n.kind ≠ .decision then .error (.wrongNodeKind name .decision n.kind)
  let shape := d.informationShape node
  let expected := entryCount shape
  if choices.length ≠ expected then .error (.tensorSize expected choices.length)
  match choices.find? fun c => n.numStates ≤ c with
  | some c => .error (.unknownState name (.index c))
  | none => pure ⟨node, name, d.informationSet node, shape, choices⟩

/-- The choice at an information state in range. -/
def choice? (l : LocalStrategy) (informationState : List Nat) : Option Nat :=
  if inRange l.shape informationState then l.choices[dot (strides l.shape) informationState]?
  else none

/-- The choice along a path whose parent coordinates are set. -/
def choiceOn? (l : LocalStrategy) (p : Path) : Option Nat :=
  l.choices[dot (strides l.shape) (l.informationSet.map fun i => p.getD i 0)]?

/-- Each information state with its choice, in lexicographic order. -/
def rules (l : LocalStrategy) : List (List Nat × Nat) :=
  ((Paths.ofStates l.shape).take l.choices.length).1.zip l.choices

end LocalStrategy

/-- The choices of all decision nodes. -/
structure Strategy where
  locals : List LocalStrategy
  deriving Repr, DecidableEq

namespace Strategy

/-- The choices of a decision node by index. -/
def local? (s : Strategy) (node : Nat) : Option LocalStrategy :=
  s.locals.find? (·.node == node)

/-- The choices of a decision node by name. -/
def byName? (s : Strategy) (name : String) : Option LocalStrategy :=
  s.locals.find? (·.name == name)

/-- The choice of a node at an information state in range. -/
def choice? (s : Strategy) (node : Nat) (informationState : List Nat) : Option Nat :=
  (s.local? node).bind (·.choice? informationState)

end Strategy

end Influence
