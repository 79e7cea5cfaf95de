import Influence.Diagram.Basic

/-!
# Assembly

Adding nodes, and ordering them so that parents come before children.

Among the nodes whose parents are all placed, the one added first is placed next, so a
list that is already in order stays as it is.  Where no order exists, the nodes that
never become ready are those on or behind a cycle.
-/

namespace Influence.Diagram

variable {α : Type}

/-- Adds a node to a diagram that is being built. -/
def addNode (n : Node) : DiagramM α Unit := do
  let d ← get
  if d.phase ≠ .building then throw .alreadyAssembled
  match n.fault? with
  | some fault => throw (.invalidNode n.name fault)
  | none =>
    if (d.position? n.name).isSome then throw (.duplicateNode n.name)
    set { d with nodes := d.nodes ++ [n] }

/-- The position of a parent that a node names. -/
def parentPosition (nodes : List Node) (child : Node) (parent : String) :
    Except (DiagramError α) Nat :=
  match nodes.findIdx? (·.name == parent) with
  | none => .error (.unknownNode parent)
  | some p =>
    match nodes[p]? with
    | some n => if n.isValue then .error (.invalidNode child.name (.valueParent parent)) else .ok p
    | none => .error (.unknownNode parent)

/-- The positions of every node's parents. -/
def parentPositions (nodes : List Node) : Except (DiagramError α) (List (List Nat)) :=
  nodes.mapM fun n => n.informationSet.mapM (parentPosition nodes n)

/-- What is known while positions are placed. -/
structure Placement where
  /-- How many parents of each position are not placed yet. -/
  missing : List Nat
  /-- The positions that can be placed next. -/
  ready : List Nat
  placed : List Nat

namespace Placement

/-- One parent of a position was placed; a position that misses no other one is ready, if it is to
be placed at all. -/
def release (waiting : List Nat) (s : Placement) (child : Nat) : Placement :=
  match s.missing[child]? with
  | some (k + 1) =>
    { s with
      missing := s.missing.set child k
      ready := if k = 0 ∧ child ∈ waiting then s.ready.insert child else s.ready }
  | _ => s

/-- Places a position and releases the positions behind it. -/
def place (waiting children : List Nat) (s : Placement) (p : Nat) : Placement :=
  children.foldl (release waiting) { s with ready := s.ready.erase p, placed := s.placed ++ [p] }

/-- How often positions can become ready or be placed. -/
def steps (s : Placement) : Nat := s.missing.foldr (· + ·) 0 + s.ready.length

theorem foldr_set {xs : List Nat} {i k : Nat} (h : xs[i]? = some (k + 1)) :
    (xs.set i k).foldr (· + ·) 0 + 1 = xs.foldr (· + ·) 0 := by
  induction xs generalizing i with
  | nil => simp at h
  | cons x xs ih =>
    cases i with
    | zero =>
      obtain rfl : x = k + 1 := by simpa using h
      simp only [List.set_cons_zero, List.foldr_cons]
      omega
    | succ i =>
      have less := ih (i := i) (by simpa using h)
      simp only [List.set_cons_succ, List.foldr_cons]
      omega

theorem steps_release (waiting : List Nat) (s : Placement) (child : Nat) :
    (s.release waiting child).steps ≤ s.steps := by
  unfold release
  split
  case h_1 k missing =>
    have less := foldr_set missing
    have longer : (s.ready.insert child).length ≤ s.ready.length + 1 := by
      rw [List.length_insert]
      split <;> omega
    dsimp only [steps]
    split <;> omega
  case h_2 => exact Nat.le_refl _

theorem steps_place (waiting children : List Nat) (s : Placement) {p : Nat} (h : p ∈ s.ready) :
    (s.place waiting children p).steps < s.steps := by
  have fold (s : Placement) : (children.foldl (release waiting) s).steps ≤ s.steps := by
    induction children generalizing s with
    | nil => exact Nat.le_refl _
    | cons child children ih => exact Nat.le_trans (ih _) (steps_release waiting s child)
  refine Nat.lt_of_le_of_lt (fold _) ?_
  have positive : 0 < s.ready.length := List.length_pos_of_mem h
  dsimp only [steps]
  rw [List.length_erase_of_mem h]
  omega

/-- Places what is ready, each time the first position, until nothing is. -/
def run (waiting : List Nat) (children : Nat → List Nat) (s : Placement) : List Nat :=
  match h : s.ready.min? with
  | none => s.placed
  | some p =>
    have := steps_place waiting (children p) s (List.min?_mem h)
    run waiting children (s.place waiting (children p) p)
termination_by s.steps

end Placement

/-- The positions behind a position, each as often as it lists it. -/
def childrenOf (parents : List (List Nat)) (p : Nat) : List Nat :=
  parents.zipIdx.flatMap fun (listed, child) => List.replicate (listed.count p) child

/-- Kahn's algorithm: places the waiting positions, each time the first one whose parents are all
placed; what never becomes ready is left out. -/
def placeReady (parents : List (List Nat)) (waiting : List Nat) : List Nat :=
  let missing := parents.map List.length
  Placement.run waiting (childrenOf parents)
    { missing, ready := waiting.filter fun p => missing.getD p 0 == 0, placed := [] }

/-- The positions of the nodes for which `keep` holds. -/
def positionsWhere (nodes : List Node) (keep : Node → Bool) : List Nat :=
  nodes.zipIdx.filterMap fun (n, i) => if keep n then some i else none

/-- The diagram with its nodes in the given order. -/
def ordered (d : Diagram α) (parents : List (List Nat)) (order : List Nat) : Diagram α :=
  let nodes := order.filterMap (d.nodes[·]?)
  { d with
    nodes
    informationSets := order.map fun p => (parents.getD p []).map order.idxOf
    states := (nodes.filter fun n => !n.isValue).map (·.numStates)
    chance := positionsWhere nodes (·.kind == .chance)
    decision := positionsWhere nodes (·.kind == .decision)
    value := positionsWhere nodes Node.isValue
    tables := List.replicate d.nodes.length none
    phase := .assembled }

/-- Orders the nodes and resolves their information sets. -/
def generateArcs : DiagramM α Unit := do
  let d ← get
  if d.phase ≠ .building then throw .alreadyAssembled
  let parents ← (parentPositions d.nodes : Except (DiagramError α) _)
  let waiting := positionsWhere d.nodes fun n => !n.isValue
  let placed := placeReady parents waiting
  let left := waiting.filter fun p => !placed.contains p
  if left ≠ [] then
    throw (.cyclicGraph (left.filterMap fun p => d.nodes[p]?.map (·.name)))
  set (d.ordered parents (placed ++ positionsWhere d.nodes Node.isValue))

end Influence.Diagram
