import Influence.Diagram.Tensor

/-!
# Nested arrays

Tables in files are numbers in nested lists.  `flatten` gives their shape and entries in
row-major order; it succeeds exactly when the lists next to each other have one shape at
every level.
-/

namespace Influence

/-- A number, or a list of nested arrays. -/
inductive Nested (α : Type) where
  | scalar (x : α)
  | array (items : List (Nested α))

/-- Two neighbours of different shape.  The depth counts the lists around the one that holds
them. -/
structure Ragged where
  depth : Nat
  element : Nat
  shape : List Nat
  expected : List Nat
  deriving Repr, DecidableEq

/-- The wording of a fault. -/
def Ragged.message (r : Ragged) : String :=
  "ragged array at depth " ++ r.depth.repr ++ ": element " ++ r.element.repr ++
    " has shape " ++ Text.indices r.shape ++ ", expected " ++ Text.indices r.expected

namespace Nested

variable {α : Type}

mutual

/-- The shape and the entries of an array at some depth. -/
def flattenAt (depth : Nat) : Nested α → Except Ragged (List Nat × List α)
  | scalar x => .ok ([], [x])
  | array items => do
    let (inner, entries) ← flattenItems depth 0 none items
    pure (items.length :: inner.getD [], entries)

/-- The common shape and the entries of neighbours, from the one with the given number on.
The first of all sets the shape that the others must have. -/
def flattenItems (depth element : Nat) (expected : Option (List Nat)) :
    List (Nested α) → Except Ragged (Option (List Nat) × List α)
  | [] => .ok (expected, [])
  | item :: rest => do
    let (shape, entries) ← flattenAt (depth + 1) item
    let wanted := expected.getD shape
    if shape ≠ wanted then .error ⟨depth, element, shape, wanted⟩
    let (common, others) ← flattenItems depth (element + 1) (some wanted) rest
    pure (common, entries ++ others)

end

/-- The shape and the entries in row-major order. -/
def flatten (n : Nested α) : Except Ragged (List Nat × List α) := flattenAt 0 n

end Nested

end Influence
