import Influence.Diagram.Basic

/-!
# Constraints on paths by name

Forced states and forbidden combinations as callers give them, with node names and state
references, resolved against an assembled diagram.
-/

namespace Influence

variable {α : Type}

/-- Forced states by node name; a node may be forced once. -/
def FixedPath.ofNames (d : Diagram α) (pairs : List (String × StateRef)) :
    Except (DiagramError α) FixedPath :=
  pairs.foldlM (fun fixed (name, ref) => do
    let (i, n) ← d.lookup name
    if n.isValue then .error (.invalidFixedPath (.valueNode name))
    let state ← Diagram.stateOf n ref
    if (fixed.get? i).isSome then .error (.invalidFixedPath (.repeated name))
    pure (fixed.insert i state)) .empty

/-- Combinations of states of some nodes that no path may take. -/
structure ForbiddenPath where
  nodes : List Nat
  /-- Each combination once. -/
  combinations : List (List Nat)
  deriving Repr, DecidableEq

namespace ForbiddenPath

/-- The distinct combinations over nodes given by index. -/
def ofIndices (nodes : List Nat) (combinations : List (List Nat)) : ForbiddenPath :=
  ⟨nodes, combinations.eraseDups⟩

/-- The indices of nodes that may appear in a combination, each named once. -/
def indices (d : Diagram α) (names : List String) : Except (DiagramError α) (List Nat) :=
  names.foldlM (fun earlier name => do
    let (i, n) ← d.lookup name
    if n.isValue then .error (.invalidForbiddenPath (.valueNode name))
    if earlier.contains i then .error (.invalidForbiddenPath (.repeated name))
    pure (earlier ++ [i])) []

/-- The states that one combination refers to. -/
def combination (d : Diagram α) (nodes : List Nat) (refs : List StateRef) :
    Except (DiagramError α) (List Nat) :=
  if refs.length ≠ nodes.length then
    .error (.invalidForbiddenPath (.tupleLength nodes.length refs.length))
  else
    (nodes.zip refs).mapM fun (i, ref) =>
      match d.nodes[i]? with
      | some n => Diagram.stateOf n ref
      | none => .error (.unknownNode (d.nameOf i))

/-- Combinations over named nodes. -/
def ofNames (d : Diagram α) (names : List String) (combinations : List (List StateRef)) :
    Except (DiagramError α) ForbiddenPath := do
  if names = [] then .error (.invalidForbiddenPath .noNodes)
  let nodes ← indices d names
  pure (ofIndices nodes (← combinations.mapM (combination d nodes)))

/-- The path takes one of the combinations. -/
def covers (f : ForbiddenPath) (p : Path) : Bool :=
  match f.nodes.mapM (p[·]?) with
  | some states => f.combinations.contains states
  | none => false

end ForbiddenPath

end Influence
