import Influence.Number.Shortest

/-!
# Number layouts

How the shortest decimal of a double is laid out as text.  A `Layout` fixes, for one
output format, the range of magnitudes written positionally, whether whole numbers
keep a fraction, the sign of exponents, and the choice between equally near digits.
Three layouts are used: `plain` for messages, program texts and solution files,
`json` for JSON documents, and `precise` for values quoted inside messages.
-/

namespace Influence

/-- The decisions of one number format. -/
structure Layout where
  /-- Positions of the decimal point that are written positionally; `none` is all. -/
  positional : Option (Int × Int)
  /-- A whole number keeps `.0`. -/
  keepsFraction : Bool
  /-- A non-negative exponent has its sign. -/
  signsExponent : Bool
  /-- The choice between equally near digits. -/
  tie : Shortest.Tie

namespace Layout

/-- Never an exponent, and no fraction on whole numbers. -/
def plain : Layout := ⟨none, false, false, .away⟩

/-- Positional from `1e-5` up to `1e16`, signed exponents beyond. -/
def json : Layout := ⟨some (-4, 16), true, true, .toEven⟩

/-- Positional from `1e-4` up to `1e16`, bare exponents beyond. -/
def precise : Layout := ⟨some (-3, 16), true, false, .away⟩

/-- Digits with the decimal point at its place, zeros filling the gap. -/
def positionalText (keepsFraction : Bool) (digits : String) (point : Int) : String :=
  let width : Int := digits.length
  if point ≤ 0 then
    "0." ++ String.ofList (List.replicate point.natAbs '0') ++ digits
  else if width ≤ point then
    digits ++ String.ofList (List.replicate (point - width).toNat '0') ++
      (if keepsFraction then ".0" else "")
  else
    let cs := digits.toList
    String.ofList (cs.take point.toNat) ++ "." ++ String.ofList (cs.drop point.toNat)

/-- One digit, the others after a point, and the exponent. -/
def exponentText (signsExponent : Bool) (digits : String) (point : Int) : String :=
  let exponent := point - 1
  let mantissa := match digits.toList with
    | [] => ""
    | [d] => String.ofList [d]
    | d :: ds => String.ofList (d :: '.' :: ds)
  let sign := if exponent < 0 then "-" else if signsExponent then "+" else ""
  mantissa ++ "e" ++ sign ++ toString exponent.natAbs

/-- The text of a decimal magnitude. -/
def decimal (l : Layout) (d : Decimal) : String :=
  if d.digits = 0 then if l.keepsFraction then "0.0" else "0"
  else
    let digits := toString d.digits
    let isPositional := match l.positional with
      | none => true
      | some (low, high) => low ≤ d.point && d.point ≤ high
    if isPositional then positionalText l.keepsFraction digits d.point
    else exponentText l.signsExponent digits d.point

/-- The text of a double.  What is not a number has no sign. -/
def text (l : Layout) (x : Float) : String :=
  if x.isNaN then "NaN"
  else
    let magnitude := if x.isFinite then l.decimal (Shortest.ofFloat l.tie x) else "inf"
    if Binary64.isNegative x then "-" ++ magnitude else magnitude

end Layout

end Influence
