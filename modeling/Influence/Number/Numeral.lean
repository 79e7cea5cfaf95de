import Influence.Number.Layout

/-!
# Numerals

Reading numbers from text, and the class of scalars that have a written form.

A numeral is an optional sign, then digits with at most one point among or around
them (at least one digit in all), then an optional exponent; `inf`, `infinity` and
`nan` are numerals in any case.  The value is the nearest double.
-/

namespace Influence

/-- Scalars with a written form that can be read again. -/
class Numeral (α : Type) where
  /-- The form used in messages and files. -/
  write : α → String
  /-- The form used where a message quotes a value. -/
  quote : α → String
  /-- The scalar a numeral stands for. -/
  read? : List Char → Option α

namespace Numeral

/-- The number that a run of decimal digits stands for, after `acc`. -/
def digitsValue (acc : Nat) (ds : List Char) : Nat :=
  ds.foldl (fun n c => 10 * n + (c.toNat - '0'.toNat)) acc

/-- A whole number in digits, with or without a plus sign. -/
def natural? (cs : List Char) : Option Nat :=
  let ds := match cs with
    | '+' :: ds => ds
    | _ => cs
  if !ds.isEmpty && ds.all Char.isDigit then some (digitsValue 0 ds) else none

/-- A decimal number written with a sign: `Decimal` with a direction. -/
structure Signed where
  isNegative : Bool
  magnitude : Decimal
  deriving Repr, DecidableEq

/-- Takes a sign off the front; the flag says whether it is a minus. -/
def takeSign : List Char → Bool × List Char
  | '-' :: cs => (true, cs)
  | '+' :: cs => (false, cs)
  | cs => (false, cs)

/-- An exponent that takes up the whole text: nothing, or `e` with a whole number. -/
def exponent? : List Char → Option Int
  | [] => some 0
  | c :: cs =>
    if c = 'e' ∨ c = 'E' then
      let (isNegative, ds) := takeSign cs
      if !ds.isEmpty && ds.all Char.isDigit then
        let n : Int := digitsValue 0 ds
        some (if isNegative then -n else n)
      else none
    else none

/-- A finite numeral. -/
def signed? (cs : List Char) : Option Signed :=
  let (isNegative, cs) := takeSign cs
  let whole := cs.takeWhile Char.isDigit
  let rest := cs.dropWhile Char.isDigit
  let (fraction, rest) := match rest with
    | '.' :: rest => (rest.takeWhile Char.isDigit, rest.dropWhile Char.isDigit)
    | _ => ([], rest)
  if whole.isEmpty && fraction.isEmpty then none
  else (exponent? rest).map fun e =>
    ⟨isNegative, digitsValue (digitsValue 0 whole) fraction, e - fraction.length⟩

/-- The nearest double. -/
def Signed.toFloat (s : Signed) : Float :=
  let x := Binary64.ofDecimal s.magnitude.digits s.magnitude.exponent
  if s.isNegative then -x else x

/-- The words for values that are not finite. -/
def word? (cs : List Char) : Option Float :=
  let (isNegative, cs) := takeSign cs
  let signedBy (x : Float) := if isNegative then -x else x
  match String.ofList (cs.map Char.toLower) with
  | "inf" | "infinity" => some (signedBy Scalar.infinity)
  | "nan" => some (signedBy Scalar.notANumber)
  | _ => none

/-- The double a numeral stands for. -/
def float? (cs : List Char) : Option Float :=
  match signed? cs with
  | some s => some s.toFloat
  | none => word? cs

instance : Numeral Float where
  write := Layout.plain.text
  quote := Layout.precise.text
  read? := float?

end Numeral

end Influence
