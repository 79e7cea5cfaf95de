import Influence.Diagram.Error
import Influence.Number.Word

/-!
# Tensors

Dense tables in row-major order.  A probability table has one axis per parent and a
last one for the node itself; a utility table has one axis per parent; a tensor
without axes holds a single value.

Sizes and positions are 64-bit words: a product or sum that does not fit is reduced
modulo `2 ^ 64`.  As long as the entry count of a shape fits, `Tensor.position` is the
rank of an index in lexicographic order and `unravel` its inverse.
-/

namespace Influence

/-- Word arithmetic for sizes and positions. -/
def word (n : Nat) : Nat := n % Word.count64

/-- The number of entries of a shape, as a word. -/
def entryCount (shape : List Nat) : Nat := shape.foldl (fun n dim => word (n * dim)) 1

/-- How far one step along each axis moves: the entry count of the later axes. -/
def strides : List Nat → List Nat
  | [] => []
  | _ :: dims => entryCount dims :: strides dims

/-- The position of an index under given strides, as a word. -/
def dot (strides index : List Nat) : Nat :=
  (index.zipWith (fun i s => word (i * s)) strides).foldl (fun n k => word (n + k)) 0

/-- Every coordinate is below the size of its axis, and there are as many. -/
def inRange (shape index : List Nat) : Bool :=
  index.length == shape.length && (index.zip shape).all fun (i, n) => i < n

/-- The index at a position, found from the last axis on.  An axis of size zero takes no
part. -/
def unravel (position : Nat) (shape : List Nat) : List Nat :=
  (go shape).1
where
  go : List Nat → List Nat × Nat
    | [] => ([], position)
    | dim :: dims =>
      let (index, rest) := go dims
      if dim = 0 then (0 :: index, rest) else (rest % dim :: index, rest / dim)

/-- A dense row-major table. -/
structure Tensor (α : Type) where
  shape : List Nat
  data : Array α
  deriving Repr, DecidableEq

namespace Tensor

variable {α : Type}

/-- A table from its entries in order, as many as the shape requires. -/
def ofData (shape : List Nat) (data : Array α) : Except (DiagramError α) (Tensor α) :=
  if entryCount shape = data.size then .ok ⟨shape, data⟩
  else .error (.tensorSize (entryCount shape) data.size)

/-- A table with one value at every position. -/
def filled (shape : List Nat) (x : α) : Tensor α :=
  ⟨shape, Array.replicate (entryCount shape) x⟩

/-- The number of entries. -/
def size (t : Tensor α) : Nat := t.data.size

/-- The position of an index, whatever its coordinates. -/
def position (t : Tensor α) (index : List Nat) : Nat := dot (strides t.shape) index

/-- The position of an index in range. -/
def offset (t : Tensor α) (index : List Nat) : Except (DiagramError α) Nat :=
  if inRange t.shape index then .ok (t.position index)
  else .error (.indexOutOfRange index t.shape)

/-- The entry at coordinates that are known to be in range. -/
def entry (t : Tensor α) (index : List Nat) : Except (DiagramError α) α :=
  match t.data[t.position index]? with
  | some x => .ok x
  | none => .error (.missingEntry index t.shape)

/-- The entry at an index. -/
def get (t : Tensor α) (index : List Nat) : Except (DiagramError α) α := do
  let _ ← t.offset index
  t.entry index

/-- The table with one entry replaced. -/
def set (t : Tensor α) (index : List Nat) (x : α) : Except (DiagramError α) (Tensor α) := do
  let k ← t.offset index
  if h : k < t.data.size then .ok { t with data := t.data.set k x h }
  else .error (.missingEntry index t.shape)

/-- The length of a row: the last axis, or one where there is none. -/
def rowWidth (t : Tensor α) : Nat := max (t.shape.getLast?.getD 1) 1

/-- The rows along the last axis, each with the index of the other axes. -/
def rows (t : Tensor α) : List (List Nat × List α) :=
  (Text.pieces t.rowWidth t.data.toList).zipIdx.map fun (row, k) =>
    (unravel k t.shape.dropLast, row)

end Tensor

end Influence
