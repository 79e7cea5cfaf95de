import Influence.Number.Scalar

/-!
# Exact scalars

The numbers of a field, together with two infinities and a value that is not a number.
Finite arithmetic is that of the field: nothing is rounded, nothing overflows, and zero has no
sign.  An operation leaves the field only through a division by zero or an infinite operand,
and what has no sensible value is not a number.

`Extended Rat` computes, and statements that read the arithmetic of this library exactly are
statements about it.
-/

namespace Influence

/-- A field with decided comparisons and whole parts. -/
class ExactField (K : Type) extends Zero K, One K, Add K, Sub K, Mul K, Div K, Neg K,
    LT K, LE K, OfScientific K where
  /-- Equality can be decided. -/
  decEq : DecidableEq K
  /-- Strict comparison can be decided. -/
  decLt : DecidableLT K
  /-- Weak comparison can be decided. -/
  decLe : DecidableLE K
  /-- The greatest whole number that is not above. -/
  floor : K → Int
  /-- A whole number. -/
  ofInt : Int → K

instance : ExactField Rat where
  zero := Rat.ofInt 0
  one := Rat.ofInt 1
  decEq := inferInstance
  decLt := inferInstance
  decLe := inferInstance
  floor := Rat.floor
  ofInt := Rat.ofInt

/-- A number of the field, an infinity, or not a number. -/
inductive Extended (K : Type) where
  | notANumber
  | bottom
  | finite (x : K)
  | top
  deriving Repr, DecidableEq

/-- The exact rational scalars. -/
abbrev Exact := Extended Rat

namespace Extended

variable {K : Type} [ExactField K]

instance : DecidableEq K := ExactField.decEq
instance : DecidableLT K := ExactField.decLt
instance : DecidableLE K := ExactField.decLe

/-! ## Signs -/

/-- The infinity on the side of a number; zero has none. -/
def towards (x : K) : Extended K :=
  if 0 < x then top else if x < 0 then bottom else notANumber

/-- The opposite. -/
def neg : Extended K → Extended K
  | notANumber => notANumber
  | bottom => top
  | finite x => finite (-x)
  | top => bottom

/-- An infinity turned by the sign of a number. -/
def turned (x : K) : Extended K → Extended K
  | bottom => (towards x).neg
  | _ => towards x

/-! ## Arithmetic -/

/-- The sum; opposite infinities have none. -/
def add : Extended K → Extended K → Extended K
  | notANumber, _ | _, notANumber => notANumber
  | finite x, finite y => finite (x + y)
  | finite _, y => y
  | x, finite _ => x
  | top, top => top
  | bottom, bottom => bottom
  | _, _ => notANumber

/-- The product; zero times an infinity is not a number. -/
def mul : Extended K → Extended K → Extended K
  | notANumber, _ | _, notANumber => notANumber
  | finite x, finite y => finite (x * y)
  | finite x, y => turned x y
  | x, finite y => turned y x
  | top, top | bottom, bottom => top
  | _, _ => bottom

/-- The quotient.  A number over zero is infinite, over an infinity it is zero. -/
def div : Extended K → Extended K → Extended K
  | notANumber, _ | _, notANumber => notANumber
  | finite x, finite y => if y = 0 then towards x else finite (x / y)
  | finite _, _ => finite 0
  | x, finite y => if y < 0 then x.neg else x
  | _, _ => notANumber

/-! ## Order -/

/-- Strictly below; what is not a number is below nothing. -/
def Below : Extended K → Extended K → Prop
  | finite x, finite y => x < y
  | bottom, finite _ | bottom, top | finite _, top => True
  | _, _ => False

/-- Below or equal; what is not a number is below nothing. -/
def AtMost : Extended K → Extended K → Prop
  | finite x, finite y => x ≤ y
  | bottom, bottom | top, top | bottom, finite _ | bottom, top | finite _, top => True
  | _, _ => False

instance decidableBelow : (a b : Extended K) → Decidable (Below a b)
  | finite x, finite y => inferInstanceAs (Decidable (x < y))
  | bottom, finite _ | bottom, top | finite _, top => isTrue trivial
  | notANumber, _ | top, _ | bottom, bottom | bottom, notANumber | finite _, bottom
  | finite _, notANumber => isFalse id

instance decidableAtMost : (a b : Extended K) → Decidable (AtMost a b)
  | finite x, finite y => inferInstanceAs (Decidable (x ≤ y))
  | bottom, bottom | top, top | bottom, finite _ | bottom, top | finite _, top => isTrue trivial
  | notANumber, _ | top, notANumber | top, bottom | top, finite _ | bottom, notANumber
  | finite _, bottom | finite _, notANumber => isFalse id

/-- Equal as numbers; what is not a number equals nothing. -/
def same (a b : Extended K) : Bool := decide (AtMost a b) && decide (AtMost b a)

/-! ## Rounding and sorting -/

/-- The nearest whole number; a half goes away from zero. -/
def nearest (x : K) : K :=
  if x < 0 then -ExactField.ofInt (ExactField.floor (-x + 0.5))
  else ExactField.ofInt (ExactField.floor (x + 0.5))

instance : Scalar (Extended K) where
  zero := finite 0
  one := finite 1
  add := add
  sub a b := add a b.neg
  mul := mul
  div := div
  neg := neg
  lt := Below
  le := AtMost
  beq := same
  ofScientific m isNegative e := finite (OfScientific.ofScientific m isNegative e)
  decLt := decidableBelow
  decLe := decidableAtMost
  ofNat n := finite (ExactField.ofInt n)
  infinity := top
  notANumber := notANumber
  isFinite
    | finite _ => true
    | _ => false
  isNaN
    | notANumber => true
    | _ => false
  abs
    | finite x => finite (if x < 0 then -x else x)
    | bottom => top
    | a => a
  round
    | finite x => finite (nearest x)
    | a => a
  totalLe
    | _, notANumber => true
    | notANumber, _ => false
    | a, b => decide (AtMost a b)

/-- Square roots of a field; what is below zero has none. -/
instance [Root K] : Root (Extended K) where
  sqrt
    | finite x => if x < 0 then notANumber else finite (Root.sqrt x)
    | top => top
    | _ => notANumber

end Extended

end Influence
