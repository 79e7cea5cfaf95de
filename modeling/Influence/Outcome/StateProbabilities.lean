import Influence.Diagram.Evaluation
import Influence.Number.Mass
import Influence.Path.Constraint
import Influence.Program.Error
import Influence.Strategy.Compatible

/-!
# State probabilities

How probable each state of each chance and decision node is under a strategy, and how
probable it is given that one chance node takes some state.
-/

namespace Influence

/-- One distribution over states per chance and decision node, in index order. -/
structure StateProbabilities (α : Type) where
  names : List String
  rows : List (List α)
  /-- The node and state that the probabilities are conditional on. -/
  given : Option (Nat × Nat)
  deriving Repr, DecidableEq

namespace StateProbabilities

variable {α : Type} [Scalar α]

/-- The names of the nodes that have states. -/
def stateNodes (d : Diagram α) : List String := (d.nodes.take d.states.length).map (·.name)

/-- The mass of the paths on which a coordinate has a state. -/
def massAt (weighted : List (Path × α)) (node state : Nat) : α :=
  Mass.total ((weighted.filter fun (p, _) => p[node]? == some state).map (·.2))

/-- The mass of every state of every node, over the compatible paths. -/
def masses (d : Diagram α) (s : Strategy) (fixed : FixedPath) :
    Except (DiagramError α) (List (List α)) := do
  if !d.isGenerated then .error .notGenerated
  let weighted ← s.collect d fixed fun p => do
    let probability ← d.probabilityOf p
    pure (if probability == 0 then none else some (p, probability))
  pure (d.states.zipIdx.map fun (count, node) =>
    (List.range count).map (massAt weighted node))

/-- The probabilities under a strategy. -/
def ofStrategy (d : Diagram α) (s : Strategy) :
    Except (DiagramError α) (StateProbabilities α) := do
  pure ⟨stateNodes d, ← masses d s .empty, none⟩

/-- The probability of a state. -/
def probability? (x : StateProbabilities α) (node state : Nat) : Option α :=
  (x.rows[node]?).bind (·[state]?)

/-- The probabilities given a state of a chance node, which must be possible under the
strategy that the prior was made for. -/
def conditional (d : Diagram α) (s : Strategy) (node : String) (ref : StateRef)
    (prior : StateProbabilities α) : Except (ProgramError α) (StateProbabilities α) := do
  let fixed ← (FixedPath.ofNames d [(node, ref)] : Except (DiagramError α) _)
  let (index, state) := fixed.entries.head?.getD (0, 0)
  let mass := (prior.probability? index state).getD 0
  if mass ≤ 0 then
    .error (.diagram (.invalidFixedPath
      (.impossible node ((d.stateNames index).getD state ""))))
  let rows ← (masses d s fixed : Except (DiagramError α) _)
  pure ⟨stateNodes d, rows.map (·.map (· / mass)), some (index, state)⟩

/-- The distribution of a node by name. -/
def byName? (x : StateProbabilities α) (name : String) : Option (List α) := do
  let index ← x.names.findIdx? (· == name)
  x.rows[index]?

end StateProbabilities

end Influence
