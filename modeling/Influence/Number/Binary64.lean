import Influence.Number.Scalar

/-!
# Doubles

The double-precision numbers as scalars.  A finite double is a sign and a
magnitude `significand * 2 ^ exponent`; `magnitude` reads the two off its bits, and
`nearest` goes the other way from any non-negative rational, with a half going to
the even neighbour.  Both are exact integer arithmetic.
-/

namespace Influence.Binary64

/-- The exponent of the least positive double. -/
def minExponent : Int := -1074

/-- The unit of the significand that the bits of a double leave out, and the number of
fractions. -/
def hiddenBit : Nat := 4503599627370496

/-- The bits of the negative zero. -/
def signBit : Nat := 9223372036854775808

/-- The sign bit is set. -/
def isNegative (x : Float) : Bool := x.toBits >>> 63 == 1

/-- The significand and the power of two of a finite double's magnitude. -/
def magnitude (x : Float) : Nat × Int :=
  let bits := x.toBits.toNat
  let fraction : Nat := bits % hiddenBit
  let biased : Nat := bits / hiddenBit % 2048
  if biased = 0 then (fraction, minExponent)
  else (fraction + hiddenBit, (biased : Int) + (minExponent - 1))

/-- The double whose magnitude is `significand * 2 ^ exponent`, for a significand
of at most 53 bits at an exponent from the least one on; infinity above the
greatest finite double.  A significand of `2 ^ 53` carries into the exponent. -/
def ofMagnitude (significand : Nat) (exponent : Int) : Float :=
  let bits := significand + (exponent - minExponent).toNat * hiddenBit
  Float.ofBits (UInt64.ofNat (min bits (2047 * hiddenBit)))

/-- A quotient rounded to the nearest whole number, a half to the even one. -/
def divideToEven (num den : Nat) : Nat :=
  let quotient := num / den
  let rest := 2 * (num % den)
  if rest > den || (rest == den && quotient % 2 == 1) then quotient + 1 else quotient

/-- `num / (den * 2 ^ exponent)` as a quotient of natural numbers. -/
def scaled (num den : Nat) (exponent : Int) : Nat × Nat :=
  if exponent < 0 then (num * Nat.pow 2 exponent.natAbs, den)
  else (num, den * Nat.pow 2 exponent.toNat)

/-- The power of two at which the quotient has a 53-bit whole part, or the least
exponent where that would be below it. -/
def exponentFor (num den : Nat) : Int :=
  let guess := (num.log2 : Int) - den.log2 - 52
  let (n, d) := scaled num den guess
  max minExponent (if n / d < hiddenBit then guess - 1 else guess)

/-- The double nearest to `num / den`; a half goes to the even neighbour, and
values past the greatest finite double go to infinity. -/
def nearest (num den : Nat) : Float :=
  if num = 0 then ofMagnitude 0 minExponent
  else
    let exponent := exponentFor num den
    let (n, d) := scaled num den exponent
    ofMagnitude (divideToEven n d) exponent

/-- The double nearest to `digits * 10 ^ exponent`.  Exponents far outside the
range of doubles are settled without forming the power. -/
def ofDecimal (digits : Nat) (exponent : Int) : Float :=
  if digits = 0 then nearest 0 1
  else
    let leading := (digits.log2 : Int) * 30103 / 100000 + exponent
    if leading > 400 then nearest (Nat.pow 2 1100) 1
    else if leading < -400 then nearest 0 1
    else if exponent < 0 then nearest digits (Nat.pow 10 exponent.natAbs)
    else nearest (digits * Nat.pow 10 exponent.toNat) 1

/-- The position of a double in the total order. -/
def orderKey (x : Float) : Int :=
  let bits := x.toBits.toNat
  if bits < signBit then bits else -1 - ((bits - signBit : Nat) : Int)

instance : Scalar Float where
  zero := Float.ofBits 0
  one := Float.ofBits 0x3ff0000000000000
  ofScientific digits negative exponent :=
    ofDecimal digits (if negative then -(exponent : Int) else exponent)
  decLt := fun a b => Float.decLt a b
  decLe := fun a b => Float.decLe a b
  ofNat n := nearest n 1
  infinity := Float.ofBits 0x7ff0000000000000
  notANumber := Float.ofBits 0x7ff8000000000000
  isFinite x := x.isFinite
  isNaN x := x.isNaN
  abs := Float.abs
  round := Float.round
  totalLe a b := orderKey a ≤ orderKey b

instance : Root Float := ⟨Float.sqrt⟩

end Influence.Binary64
