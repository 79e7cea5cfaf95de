/-!
# Scalars

Every table, program and report of this library is written over a type of
scalars rather than over one fixed number type.  `Scalar` lists what they need:
the four operations, the comparisons, the two infinities, a test for finiteness,
rounding, and a total order for sorting.

Two families are meant.  Doubles run (`Number/Binary64`), and extended exact
rationals (`Number/Exact`) are what statements about the arithmetic speak of.
Comparisons are partial: a value that is not a number is neither below, above,
nor equal to anything, itself included.
-/

namespace Influence

/-- A number type with infinities and a value that is not a number. -/
class Scalar (α : Type) extends Zero α, One α, Add α, Sub α, Mul α, Div α, Neg α,
    LT α, LE α, BEq α, OfScientific α where
  /-- Strict comparison can be decided. -/
  decLt : DecidableLT α
  /-- Weak comparison can be decided. -/
  decLe : DecidableLE α
  /-- The scalar nearest to a natural number. -/
  ofNat : Nat → α
  /-- Positive infinity. -/
  infinity : α
  /-- The value that is not a number. -/
  notANumber : α
  /-- Neither infinite nor not a number. -/
  isFinite : α → Bool
  /-- Not a number. -/
  isNaN : α → Bool
  /-- The magnitude. -/
  abs : α → α
  /-- The nearest whole number; a half goes away from zero. -/
  round : α → α
  /-- The total order that sorts scalars: numbers ascend, and of the values that
  compare equal the negative zero comes first. -/
  totalLe : α → α → Bool

/-- Scalars that have square roots. -/
class Root (α : Type) where
  /-- The square root. -/
  sqrt : α → α

namespace Scalar

variable {α : Type} [Scalar α]

instance : DecidableLT α := Scalar.decLt
instance : DecidableLE α := Scalar.decLe

/-- The larger of two scalars; one that is not a number is ignored, and of two equals, such as
the two zeros, the second is taken. -/
def larger (a b : α) : α :=
  if isNaN a then b else if isNaN b then a else if b < a then a else b

/-- The smaller of two scalars; one that is not a number is ignored, and of two equals, such as
the two zeros, the second is taken. -/
def smaller (a b : α) : α :=
  if isNaN a then b else if isNaN b then a else if a < b then a else b

/-- Infinite, of either sign. -/
def isInfinite (a : α) : Bool := !isFinite a && !isNaN a

/-- The plain sum from left to right.  It starts from the negative zero, the one
value that is neutral for both zeros. -/
def sum (xs : List α) : α := xs.foldl (· + ·) (-0)

/-- The product from left to right, starting from one. -/
def product (xs : List α) : α := xs.foldl (· * ·) 1

/-- Repeated squaring: `acc * base ^ n`, with one multiplication of the
accumulator per set bit of `n`, lowest bit first. -/
def powerFrom (acc base : α) (n : Nat) : α :=
  if n = 0 then acc
  else
    let acc := if n % 2 = 1 then acc * base else acc
    if n / 2 = 0 then acc else powerFrom acc (base * base) (n / 2)
termination_by n

/-- A whole power, negative exponents by one final division. -/
def power (base : α) : Int → α
  | .ofNat n => powerFrom 1 base n
  | .negSucc n => 1 / powerFrom 1 base (n + 1)

end Scalar

end Influence
