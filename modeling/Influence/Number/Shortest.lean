import Influence.Number.Binary64

/-!
# The fewest digits that read back

A double stands for the interval of reals that round to it.  Its shortest decimal
is the point of the coarsest decimal grid that meets that interval: at each grid
only the two neighbours of the value need a test, since if any point of a grid lies
in the interval so does one of them.  Of two neighbours that both read back the
nearer is taken, and `Tie` settles the case of equal distances.

All comparisons are between natural numbers.
-/

namespace Influence

/-- A decimal magnitude `digits * 10 ^ exponent`. -/
structure Decimal where
  digits : Nat
  exponent : Int
  deriving Repr, DecidableEq

namespace Decimal

/-- How many digits the significand has. -/
def width (d : Decimal) : Nat := (Nat.toDigits 10 d.digits).length

/-- Where the decimal point stands: the value is `0.d₁d₂… * 10 ^ point`. -/
def point (d : Decimal) : Int := d.width + d.exponent

/-- The same value with no zero at the end of its digits. -/
def strip (d : Decimal) : Decimal :=
  if h : d.digits ≠ 0 ∧ d.digits % 10 = 0 then strip ⟨d.digits / 10, d.exponent + 1⟩ else d
termination_by d.digits
decreasing_by omega

end Decimal

namespace Shortest

/-- Which of two equally near candidates is taken. -/
inductive Tie where
  /-- The larger magnitude. -/
  | away
  /-- The one whose last digit is even. -/
  | toEven
  deriving Repr, DecidableEq

/-- A positive double and its rounding interval over one denominator: every real
strictly between `low / den` and `high / den` reads back as `value / den`, and the
two ends do so when `closed`. -/
structure Interval where
  low : Nat
  value : Nat
  high : Nat
  den : Nat
  closed : Bool

/-- The rounding interval of `significand * 2 ^ exponent`.  Below a power of two the
doubles are twice as dense, so there the lower half-gap is half as wide. -/
def Interval.ofMagnitude (significand : Nat) (exponent : Int) : Interval :=
  let narrow := significand = Binary64.hiddenBit ∧ Binary64.minExponent < exponent
  let low := if narrow then 4 * significand - 1 else 4 * significand - 2
  let unit := Nat.pow 2 (exponent - 2).toNat
  let den := Nat.pow 2 (2 - exponent).toNat
  ⟨low * unit, 4 * significand * unit, (4 * significand + 2) * unit, den, significand % 2 = 0⟩

/-- The candidate `n / scale` reads back. -/
def Interval.contains (i : Interval) (n scale : Nat) : Bool :=
  if i.closed then i.low * scale ≤ n * i.den && n * i.den ≤ i.high * scale
  else i.low * scale < n * i.den && n * i.den < i.high * scale

/-- The neighbour of the value on the grid of step `1 / scale`, times `step`, that
reads back, if any: of two the nearer, and `tie` settles equal distances. -/
def Interval.candidate (i : Interval) (tie : Tie) (step scale : Nat) : Option Nat :=
  let below := i.value * scale / (i.den * step)
  let above := below + 1
  let reads n := i.contains (n * step) scale
  match reads below, reads above with
  | true, true =>
    let twice := 2 * (i.value * scale)
    let middle := (below + above) * step * i.den
    if twice < middle then some below
    else if middle < twice then some above
    else match tie with
      | .away => some above
      | .toEven => some (if below % 2 = 0 then below else above)
  | true, false => some below
  | false, true => some above
  | false, false => none

/-- The least `point` with `value < 10 ^ point`, from a close guess. -/
def Interval.point (i : Interval) : Int :=
  let below (p : Int) : Bool :=
    if p < 0 then i.value * Nat.pow 10 p.natAbs < i.den
    else i.value < i.den * Nat.pow 10 p.toNat
  let guess : Int := ((i.value.log2 : Int) - i.den.log2) * 30103 / 100000
  (([guess - 1, guess, guess + 1, guess + 2].find? below).getD (guess + 3))

/-- The candidate of exactly so many digits. -/
def Interval.ofWidth (i : Interval) (tie : Tie) (point : Int) (width : Nat) : Option Decimal :=
  let exponent := point - width
  let found :=
    if exponent < 0 then i.candidate tie 1 (Nat.pow 10 exponent.natAbs)
    else i.candidate tie (Nat.pow 10 exponent.toNat) 1
  found.map (⟨·, exponent⟩)

/-- The shortest decimal that reads back as the positive double
`significand * 2 ^ exponent`; seventeen digits always suffice. -/
def ofMagnitude (tie : Tie) (significand : Nat) (exponent : Int) : Decimal :=
  let i := Interval.ofMagnitude significand exponent
  let point := i.point
  match (List.range 17).findSome? (fun n => i.ofWidth tie point (n + 1)) with
  | some d => d.strip
  | none => ⟨0, 0⟩

/-- The shortest decimal magnitude of a finite double. -/
def ofFloat (tie : Tie) (x : Float) : Decimal :=
  match Binary64.magnitude x with
  | (0, _) => ⟨0, 0⟩
  | (significand, exponent) => ofMagnitude tie significand exponent

end Shortest

end Influence
