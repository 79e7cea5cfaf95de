import Influence.Diagram.Node
import Influence.Number.Numeral
import Influence.Text.Listing

/-!
# Causes of failure in diagrams

One constructor per cause, with the data that the message shows.  `code` groups them
for reports: assembly from 100, tables from 110, phases from 120, path arguments from
130.
-/

namespace Influence

/-- What is wrong with an assignment of states to nodes. -/
inductive FixedFault where
  | valueNode (node : String)
  | repeated (node : String)
  | indexOutside (index length : Nat)
  | stateOutside (state index count : Nat)
  /-- A strategy already settles this node. -/
  | decisionNode (node : String)
  /-- The event to condition on has no probability. -/
  | impossible (node state : String)
  deriving Repr, DecidableEq

/-- The wording of a fault. -/
def FixedFault.text : FixedFault → String
  | .valueNode node => node ++ " is a value node and has no states"
  | .repeated node => node ++ " is fixed more than once"
  | .indexOutside index length =>
    "node index " ++ index.repr ++ " is outside the path of length " ++ length.repr
  | .stateOutside state index count =>
    "state " ++ state.repr ++ " out of range for node index " ++ index.repr ++ " with " ++
      count.repr ++ " states"
  | .decisionNode node =>
    "decision node " ++ node ++ " cannot be fixed when following a strategy"
  | .impossible node state =>
    node ++ " = " ++ state ++ " has zero probability under the strategy"

/-- What is wrong with a list of forbidden combinations. -/
inductive ForbiddenFault where
  | noNodes
  | valueNode (node : String)
  | repeated (node : String)
  | tupleLength (expected actual : Nat)
  deriving Repr, DecidableEq

/-- The wording of a fault. -/
def ForbiddenFault.text : ForbiddenFault → String
  | .noNodes => "at least one node is required"
  | .valueNode node => node ++ " is a value node"
  | .repeated node => node ++ " is listed more than once"
  | .tupleLength expected actual =>
    "expected " ++ expected.repr ++ " states per combination, got " ++ actual.repr

/-- What is wrong with the arguments of an operation. -/
inductive OptionFault (α : Type) where
  | foreignMatrix (owner node : String)
  | scalarTable (node : String)
  | bothSigns
  | signWithoutUtility
  | scaleFactor (f : α)
  | noLocalStrategy (node : String)
  | noDecisionVariables (node : String)
  deriving Repr, DecidableEq

/-- The wording of a fault. -/
def OptionFault.text {α : Type} [Numeral α] : OptionFault α → String
  | .foreignMatrix owner node =>
    "matrix built for " ++ owner ++ " cannot be attached to " ++ node
  | .scalarTable node =>
    node ++ " has a scalar table; use set with an empty state list"
  | .bothSigns => "positive_path_utility and negative_path_utility are exclusive"
  | .signWithoutUtility => "path utility translation requires default_utility"
  | .scaleFactor f => "probability_scale_factor must be positive, got " ++ Numeral.write f
  | .noLocalStrategy node => "strategy has no entry for decision node " ++ node
  | .noDecisionVariables node => "no decision variables for " ++ node

/-- Why a diagram could not be assembled, generated or evaluated. -/
inductive DiagramError (α : Type) where
  | duplicateNode (name : String)
  | invalidNode (name : String) (fault : NodeFault)
  | unknownNode (name : String)
  | unknownState (node : String) (state : StateRef)
  | cyclicGraph (nodes : List String)
  | wrongNodeKind (node : String) (expected actual : NodeKind)
  | dimensionMismatch (node : String) (expected actual : List Nat)
  | tensorSize (expected actual : Nat)
  | unnormalizedProbability (node : String) (index : List Nat) (sum : α)
  | negativeProbability (node : String) (value : α)
  | nonFiniteUtility (node : String)
  | indexOutOfRange (index shape : List Nat)
  /-- A table has fewer entries than its shape has positions. -/
  | missingEntry (index shape : List Nat)
  /-- No node has this index. -/
  | missingNode (index : Nat)
  | missingProbabilities (node : String)
  | pathUtilityUnset
  | notAssembled
  | alreadyAssembled
  | notGenerated
  | alreadyGenerated
  | invalidFixedPath (fault : FixedFault)
  | invalidForbiddenPath (fault : ForbiddenFault)
  | invalidOption (fault : OptionFault α)
  deriving Repr, DecidableEq

namespace DiagramError

variable {α : Type}

/-- The number that reports give to a cause. -/
def code : DiagramError α → Nat
  | duplicateNode .. => 100
  | invalidNode .. => 101
  | unknownNode .. => 102
  | unknownState .. => 103
  | cyclicGraph .. => 104
  | wrongNodeKind .. => 105
  | dimensionMismatch .. => 110
  | tensorSize .. => 111
  | unnormalizedProbability .. => 112
  | negativeProbability .. => 113
  | nonFiniteUtility .. => 114
  | indexOutOfRange .. | missingEntry .. | missingNode .. => 115
  | missingProbabilities .. => 120
  | pathUtilityUnset => 121
  | notAssembled => 122
  | alreadyAssembled => 123
  | notGenerated => 124
  | alreadyGenerated => 125
  | invalidFixedPath .. => 130
  | invalidForbiddenPath .. => 131
  | invalidOption .. => 132

/-- The message of a cause. -/
def message [Numeral α] : DiagramError α → String
  | duplicateNode name => "duplicate node name: " ++ name
  | invalidNode name fault => "invalid node " ++ name ++ ": " ++ fault.text
  | unknownNode name => "unknown node: " ++ name
  | unknownState node state => "unknown state " ++ state.text ++ " for node " ++ node
  | cyclicGraph nodes =>
    "information sets form a cycle through: " ++ Text.joined ", " nodes
  | wrongNodeKind node expected actual =>
    "node " ++ node ++ " is a " ++ actual.text ++ " node, expected a " ++ expected.text ++
      " node"
  | dimensionMismatch node expected actual =>
    "dimension mismatch for " ++ node ++ ": expected shape " ++ Text.indices expected ++
      ", got " ++ Text.indices actual
  | tensorSize expected actual =>
    "tensor data has " ++ actual.repr ++ " values, shape requires " ++ expected.repr
  | unnormalizedProbability node index sum =>
    "probabilities of " ++ node ++ " sum to " ++ Numeral.write sum ++ " at " ++
      Text.indices index ++ ", expected 1"
  | negativeProbability node value =>
    "invalid probability " ++ Numeral.write value ++ " for " ++ node ++
      ": must be finite and non-negative"
  | nonFiniteUtility node => "non-finite utility for " ++ node ++ ": every entry must be set"
  | indexOutOfRange index shape =>
    "index " ++ Text.indices index ++ " out of range for shape " ++ Text.indices shape
  | missingEntry index shape =>
    "table of shape " ++ Text.indices shape ++ " has no entry at " ++ Text.indices index
  | missingNode index => "no node has index " ++ index.repr
  | missingProbabilities node => "no probabilities set for chance node " ++ node
  | pathUtilityUnset => "path utility has not been set"
  | notAssembled => "arcs have not been generated"
  | alreadyAssembled => "arcs have already been generated"
  | notGenerated => "diagram has not been generated"
  | alreadyGenerated => "diagram has already been generated"
  | invalidFixedPath fault => "invalid fixed path: " ++ fault.text
  | invalidForbiddenPath fault => "invalid forbidden path: " ++ fault.text
  | invalidOption fault => "invalid option: " ++ fault.text

end DiagramError

end Influence
