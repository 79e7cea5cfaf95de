import Influence.Diagram.Error
import Influence.Number.Word

/-!
# Enumerating paths

A path gives one state to every chance and decision node, in index order.  Paths are
listed in lexicographic order, the last coordinate moving fastest, with some
coordinates held at one state.

`Paths` is a position in that list: `next` turns the free coordinates like an
odometer, `restart` goes back to the first path, and since a position is a value any
earlier one can be kept and resumed.  `all` is the list itself, `after` the part of it
past a given path, and `foldM` visits the paths in order without listing them.
-/

namespace Influence

/-- One state per chance and decision node, in index order. -/
abbrev Path := List Nat

/-- States forced on some coordinates, by ascending index. -/
structure FixedPath where
  entries : List (Nat × Nat)
  deriving Repr, DecidableEq

namespace FixedPath

/-- Nothing forced. -/
def empty : FixedPath := ⟨[]⟩

/-- The state forced on a coordinate. -/
def get? (f : FixedPath) (index : Nat) : Option Nat := f.entries.lookup index

/-- Forces one more coordinate; an earlier state for it is replaced. -/
def insert (f : FixedPath) (index state : Nat) : FixedPath :=
  ⟨go f.entries⟩
where
  go : List (Nat × Nat) → List (Nat × Nat)
    | [] => [(index, state)]
    | (i, s) :: rest =>
      if index < i then (index, state) :: (i, s) :: rest
      else if index = i then (index, state) :: rest
      else (i, s) :: go rest

/-- The last state given for each coordinate. -/
def ofPairs (pairs : List (Nat × Nat)) : FixedPath :=
  pairs.foldl (fun f (i, s) => f.insert i s) empty

/-- The first entry that no path of the given state counts can satisfy. -/
def fault? (f : FixedPath) (states : List Nat) : Option FixedFault :=
  f.entries.findSome? fun (index, state) =>
    match states[index]? with
    | none => some (.indexOutside index states.length)
    | some count => if count ≤ state then some (.stateOutside state index count) else none

end FixedPath

/-- What one coordinate of a path may be. -/
inductive Coordinate where
  /-- Any state below the count. -/
  | free (count : Nat)
  /-- This state only. -/
  | held (state : Nat)
  deriving Repr, DecidableEq

namespace Coordinate

/-- The coordinates of a state space with some states forced. -/
def ofStates (states : List Nat) (fixed : FixedPath) : List Coordinate :=
  states.zipIdx.map fun (count, index) =>
    match fixed.get? index with
    | some state => .held state
    | none => .free count

/-- The states of a coordinate, ascending. -/
def states : Coordinate → List Nat
  | free count => List.range count
  | held state => [state]

/-- The first state of a coordinate. -/
def start : Coordinate → Nat
  | free _ => 0
  | held state => state

/-- The states of a coordinate past a given one, ascending. -/
def statesAfter : Coordinate → Nat → List Nat
  | free count, s => List.range' (s + 1) (count - (s + 1))
  | held _, _ => []

/-- A coordinate without a state. -/
def isEmpty : Coordinate → Bool
  | free count => count == 0
  | held _ => false

end Coordinate

namespace Paths

/-- All paths in order. -/
def all : List Coordinate → List Path
  | [] => [[]]
  | c :: cs => c.states.flatMap fun s => (all cs).map (s :: ·)

/-- Visits the paths in order, up to the first failure. -/
def foldM {ε β : Type} : List Coordinate → (β → Path → Except ε β) → β → Except ε β
  | [], visit, b => visit b []
  | c :: cs, visit, b =>
    c.states.foldlM (fun b s => foldM cs (fun b p => visit b (s :: p)) b) b

/-- The paths past a given one, in order. -/
def after : List Coordinate → Path → List Path
  | c :: cs, s :: p =>
    (after cs p).map (s :: ·) ++ (c.statesAfter s).flatMap fun s => (all cs).map (s :: ·)
  | _, _ => []

/-- The first path, unless some coordinate has no state. -/
def first? (cs : List Coordinate) : Option Path :=
  if cs.any Coordinate.isEmpty then none else some (cs.map Coordinate.start)

/-- The path right after a given one: the last coordinate that can move does, and those
behind it start over. -/
def advance? : List Coordinate → Path → Option Path
  | c :: cs, s :: p =>
    match advance? cs p with
    | some p => some (s :: p)
    | none =>
      match c with
      | .free count =>
        if s + 1 < count then some ((s + 1) :: cs.map Coordinate.start) else none
      | .held _ => none
  | _, _ => none

end Paths

/-- A position in the list of paths. -/
structure Paths where
  coordinates : List Coordinate
  /-- The path to come, if any is left. -/
  upcoming : Option Path
  deriving Repr, DecidableEq

namespace Paths

/-- The start of the list of paths through the given coordinates. -/
def ofCoordinates (cs : List Coordinate) : Paths := ⟨cs, first? cs⟩

/-- All paths of a state space. -/
def ofStates (states : List Nat) : Paths :=
  ofCoordinates (Coordinate.ofStates states FixedPath.empty)

/-- The paths of a state space that agree with forced states. -/
def withFixed {α : Type} (states : List Nat) (fixed : FixedPath) :
    Except (DiagramError α) Paths :=
  match fixed.fault? states with
  | some fault => .error (.invalidFixedPath fault)
  | none => .ok (ofCoordinates (Coordinate.ofStates states fixed))

/-- Back to the first path. -/
def restart (ps : Paths) : Paths := ofCoordinates ps.coordinates

/-- The path to come and the position behind it. -/
def next? (ps : Paths) : Option (Path × Paths) :=
  ps.upcoming.map fun p => (p, { ps with upcoming := advance? ps.coordinates p })

/-- Up to `n` paths and the position behind them. -/
def take (ps : Paths) : Nat → List Path × Paths
  | 0 => ([], ps)
  | n + 1 =>
    match ps.next? with
    | none => ([], ps)
    | some (p, ps) =>
      let (rest, ps) := ps.take n
      (p :: rest, ps)

/-- The paths still to come. -/
def toList (ps : Paths) : List Path :=
  match ps.upcoming with
  | none => []
  | some p => p :: after ps.coordinates p

/-- The position behind the last path. -/
def finish (ps : Paths) : Paths := { ps with upcoming := none }

/-- A product that stops as soon as it no longer fits in 128 bits. -/
def checkedProduct (ns : List Nat) : Option Nat :=
  ns.foldl (fun acc n => acc.bind fun m => if m * n < Word.count128 then some (m * n) else none)
    (some 1)

/-- The number of paths in the whole list, counted over the free coordinates. -/
def count? (ps : Paths) : Option Nat :=
  checkedProduct <| ps.coordinates.filterMap fun
    | .free count => some count
    | .held _ => none

end Paths

end Influence
