import Influence.Strategy.Basic

/-!
# Paths that follow a strategy

Only chance coordinates are enumerated.  Decision coordinates are read from the strategy
in ascending order, when the information they observe is already settled.
-/

namespace Influence

namespace Strategy

variable {α β : Type}

/-- A path with its decision coordinates replaced by the strategy's choices. -/
def settle (s : Strategy) (decisions : List Nat) (p : Path) : Except (DiagramError α) Path :=
  decisions.foldlM (fun p d =>
    match s.local? d with
    | none => pure p
    | some l =>
      match l.choiceOn? p with
      | some choice => pure (p.set d choice)
      | none => .error (.missingEntry (l.informationSet.map fun i => p.getD i 0) l.shape)) p

/-- The paths that agree with forced chance states, in order, their decision coordinates
still to be settled. -/
def unsettledPaths (d : Diagram α) (s : Strategy) (fixed : FixedPath) :
    Except (DiagramError α) (List Path) := do
  match fixed.entries.find? fun (i, _) => d.decision.contains i with
  | some (i, _) => .error (.invalidFixedPath (.decisionNode (d.nameOf i)))
  | none =>
    match d.decision.find? fun i => (s.local? i).isNone with
    | some i => .error (.invalidOption (.noLocalStrategy (d.nameOf i)))
    | none =>
      let held := d.decision.foldl (fun f i => f.insert i 0) fixed
      let paths ← Paths.withFixed d.states held
      pure paths.toList

/-- The paths that agree with a strategy and with forced chance states, in order. -/
def compatiblePaths (d : Diagram α) (s : Strategy) (fixed : FixedPath) :
    Except (DiagramError α) (List Path) := do
  (← s.unsettledPaths d fixed).mapM (s.settle d.decision)

/-- What is found on the compatible paths, each of which is settled when its turn comes. -/
def collect (d : Diagram α) (s : Strategy) (fixed : FixedPath)
    (visit : Path → Except (DiagramError α) (Option β)) : Except (DiagramError α) (List β) := do
  (← s.unsettledPaths d fixed).filterMapM fun p => do visit (← s.settle d.decision p)

end Strategy

end Influence
