import Influence.Program.Solution
import Influence.Strategy.Basic

/-!
# Decision variables

One binary variable for every decision node, state of its information and state of its
own, and for every information state the constraint that exactly one of its variables is
one.  The assignments that satisfy these constraints are the strategies; `strategy` reads
one back from a solution.
-/

namespace Influence

/-- The binary variables of one decision node, by information state and then by own
state. -/
structure LocalVariables where
  node : Nat
  name : String
  informationSet : List Nat
  /-- The state counts of the information set. -/
  shape : List Nat
  /-- The number of own states. -/
  states : Nat
  vars : List Nat
  deriving Repr, DecidableEq

namespace LocalVariables

/-- Where the group of an information state starts. -/
def groupStart (l : LocalVariables) (informationState : List Nat) : Nat :=
  word (dot (strides l.shape) informationState * l.states)

/-- The variables of an information state, one per own state. -/
def group (l : LocalVariables) (informationState : List Nat) : List Nat :=
  (l.vars.drop (l.groupStart informationState)).take l.states

/-- The variable that a path selects. -/
def variableOn? (l : LocalVariables) (p : Path) : Option Nat := do
  let own ← p[l.node]?
  l.vars[l.groupStart (l.informationSet.map fun i => p.getD i 0) + own]?

end LocalVariables

/-- The binary variables of all decision nodes. -/
structure DecisionVariables where
  locals : List LocalVariables
  deriving Repr, DecidableEq

namespace DecisionVariables

/-- The label of a node in variable names: everything but ASCII letters and digits
becomes an underscore. -/
def label (name : String) : String :=
  name.map fun c => if c.isAlphanum then c else '_'

/-- The name of a variable.  The node's index keeps names apart whose labels agree. -/
def variableName (node : Nat) (name : String) (informationState : List Nat) (s : Nat) :
    String :=
  Text.joined "_" (("z" ++ node.repr ++ "_" ++ label name) ::
    (informationState ++ [s]).map Nat.repr)

variable {α : Type} [Scalar α]

/-- Adds the variables of one information state and their constraint. -/
def addGroup (names : Bool) (node : Nat) (name : String) (states : Nat)
    (informationState : List Nat) : ProgramM α (List Nat) := do
  let group ← (List.range states).mapM fun s =>
    Program.addBinary (if names then some (variableName node name informationState s) else none)
  let _ ← Program.constrain (LinearExpr.sum (group.map LinearExpr.var)) .eq 1 false
  pure group

/-- Adds the variables of one decision node. -/
def addLocal (d : Diagram α) (names : Bool) (node : Nat) : ProgramM α LocalVariables := do
  let name := d.nameOf node
  let shape := d.informationShape node
  let states := d.states.getD node 0
  let groups ← (Paths.ofStates shape).toList.mapM (addGroup names node name states)
  pure ⟨node, name, d.informationSet node, shape, states, groups.flatten⟩

/-- Adds the variables of all decision nodes of a generated diagram. -/
def build (d : Diagram α) (names : Bool) : ProgramM α DecisionVariables := do
  if !d.isGenerated then throw (.diagram .notGenerated)
  pure ⟨← d.decision.mapM (addLocal d names)⟩

/-- The variables of a decision node. -/
def local? (z : DecisionVariables) (node : Nat) : Option LocalVariables :=
  z.locals.find? (·.node == node)

/-- The variable of a decision node that a path selects. -/
def variableOn? (z : DecisionVariables) (node : Nat) (p : Path) : Option Nat :=
  (z.local? node).bind (·.variableOn? p)

/-- The number of binary variables. -/
def size (z : DecisionVariables) : Nat := z.locals.foldl (fun n l => n + l.vars.length) 0

/-! ## Reading a strategy back -/

/-- The value from which a variable counts as chosen. -/
def threshold : α := 0.5

/-- The own states whose variables are chosen. -/
def active (s : Solution α) (group : List Nat) : List Nat :=
  group.zipIdx.filterMap fun (v, k) =>
    if threshold ≤ s.value v then some k else none

/-- The choice of one information state: exactly one variable must be chosen. -/
def LocalVariables.choice (l : LocalVariables) (s : Solution α) (informationState : List Nat) :
    Except (ProgramError α) Nat :=
  match active s (l.group informationState) with
  | [k] => .ok k
  | ks => .error (.infeasibleStrategy l.name informationState ks.length)

/-- The choices of one decision node. -/
def LocalVariables.strategy (l : LocalVariables) (s : Solution α) :
    Except (ProgramError α) LocalStrategy := do
  let choices ← (Paths.ofStates l.shape).toList.mapM (LocalVariables.choice l s)
  pure ⟨l.node, l.name, l.informationSet, l.shape, choices⟩

/-- The strategy that a solution encodes. -/
def strategy (z : DecisionVariables) (s : Solution α) : Except (ProgramError α) Strategy := do
  pure ⟨← z.locals.mapM fun l => LocalVariables.strategy l s⟩

end DecisionVariables

end Influence
