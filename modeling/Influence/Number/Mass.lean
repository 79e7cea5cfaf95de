import Influence.Number.Scalar

/-!
# Sums of probability mass

Path probabilities are products of many small factors, so their sums carry the
rounding error of every addition along and add it back at the end.  Over exact
scalars the carried error is zero and `Mass.total` is the sum.

`approxEq` is the tolerance that decides whether a mass is one, and
`isDistribution` the test of a whole row.
-/

namespace Influence

variable {α : Type} [Scalar α]

/-- A running sum and the rounding error it has shed so far. -/
structure Mass (α : Type) where
  sum : α
  shed : α

namespace Mass

/-- The empty sum. -/
def empty : Mass α := ⟨0, 0⟩

/-- Adds a term.  The error is taken relative to the larger of the two summands. -/
def add (m : Mass α) (x : α) : Mass α :=
  let t := m.sum + x
  if Scalar.abs x ≤ Scalar.abs m.sum then ⟨t, m.shed + ((m.sum - t) + x)⟩
  else ⟨t, m.shed + ((x - t) + m.sum)⟩

/-- The sum with its shed error added back. -/
def value (m : Mass α) : α := m.sum + m.shed

/-- Adds the terms in order. -/
def addAll (m : Mass α) (xs : List α) : Mass α := xs.foldl add m

/-- The compensated sum of a list. -/
def total (xs : List α) : α := (empty.addAll xs).value

/-- The value of the empty sum, then the value after each further term. -/
def running (xs : List α) : List α :=
  go empty xs
where
  go (m : Mass α) : List α → List α
    | [] => [m.value]
    | x :: xs => m.value :: go (m.add x) xs

end Mass

/-- How far a probability mass may be from one. -/
def massTolerance : α := 1e-8

/-- Equality up to `tol`, absolutely or relative to the larger magnitude.  What is not
a number equals nothing, and an infinity only itself. -/
def approxEq (a b tol : α) : Bool :=
  if Scalar.isNaN a || Scalar.isNaN b then false
  else if Scalar.isInfinite a || Scalar.isInfinite b then a == b
  else Scalar.abs (a - b) ≤
    Scalar.larger tol (tol * Scalar.larger (Scalar.abs a) (Scalar.abs b))

/-- The values are finite, not negative, not none at all, and sum to one within `tol`. -/
def isDistribution (xs : List α) (tol : α) : Bool :=
  !xs.isEmpty && xs.all (fun x => Scalar.isFinite x && !(decide (x < 0))) &&
    approxEq (Mass.total xs) 1 tol

end Influence
