import Influence.Text.Document

/-!
# TOML scalars

What a bare word stands for as a value: a truth value, a whole number in one of four
bases, a real, or a date or time.  Underscores may stand between two digits.
-/

namespace Influence.Toml

/-- Digits with single underscores between them, none at the ends. -/
def underscored? (isDigit : Char → Bool) : List Char → Option (List Char)
  | [] => none
  | [c] => if isDigit c then some [c] else none
  | c :: '_' :: cs => if isDigit c then (underscored? isDigit cs).map (c :: ·) else none
  | c :: cs => if isDigit c then (underscored? isDigit cs).map (c :: ·) else none

/-- The value of a digit, of either case. -/
def digitValue (c : Char) : Nat :=
  if c.isDigit then c.toNat - '0'.toNat else c.toLower.toNat - 'a'.toNat + 10

/-- The digits of a base. -/
def isDigitOf (base : Nat) (c : Char) : Bool :=
  (c.isDigit || ('a' ≤ c.toLower && c.toLower ≤ 'f')) && digitValue c < base

/-- A whole number that fits in a signed 64-bit word. -/
def inWord (i : Int) : Option Document :=
  if -9223372036854775808 ≤ i ∧ i < 9223372036854775808 then some (.integer i) else none

/-- A whole number in a base with a mark of its own, without a sign. -/
def based? (base : Nat) (cs : List Char) : Option Document :=
  (underscored? (isDigitOf base) cs).bind fun ds =>
    inWord (ds.foldl (fun n c => base * n + digitValue c) 0 : Nat)

/-- Decimal digits without a needless zero in front. -/
def wholePart? (cs : List Char) : Option (List Char) :=
  (underscored? Char.isDigit cs).filter fun ds => ds.length == 1 || ds.head? != some '0'

/-- A decimal whole number. -/
def integer? (cs : List Char) : Option Document :=
  let (isNegative, ds) := Numeral.takeSign cs
  (wholePart? ds).bind fun ds =>
    let n : Int := Numeral.digitsValue 0 ds
    inWord (if isNegative then -n else n)

/-- A decimal real: a whole part, then a fraction or an exponent or both.  One that is too
large for a double is refused, unless it is negative. -/
def real? (cs : List Char) : Option Document := do
  let (isNegative, cs) := Numeral.takeSign cs
  let isExponent (c : Char) : Bool := c = 'e' || c = 'E'
  if !cs.any fun c => c = '.' || isExponent c then failure
  let mantissa := cs.takeWhile fun c => !isExponent c
  let exponent ← match cs.dropWhile fun c => !isExponent c with
    | [] => pure 0
    | _ :: es =>
      let (isBelow, es) := Numeral.takeSign es
      let ds ← underscored? Char.isDigit es
      let n : Int := Numeral.digitsValue 0 ds
      pure (if isBelow then -n else n)
  let whole ← wholePart? (mantissa.takeWhile (· ≠ '.'))
  let fraction ← match mantissa.dropWhile (· ≠ '.') with
    | [] => pure []
    | _ :: fs => underscored? Char.isDigit fs
  let digits := Numeral.digitsValue (Numeral.digitsValue 0 whole) fraction
  let x := Numeral.Signed.toFloat ⟨isNegative, ⟨digits, exponent - fraction.length⟩⟩
  if x.isFinite || isNegative then pure (.real x) else failure

/-- The words for values that are not finite. -/
def special? (cs : List Char) : Option Document :=
  match String.ofList (Numeral.takeSign cs).2 with
  | "inf" | "nan" => (Numeral.word? cs).map .real
  | _ => none

/-! ## Dates and times -/

/-- The number that two digits in front stand for, with the rest. -/
def twoDigits? : List Char → Option (Nat × List Char)
  | a :: b :: cs =>
    if a.isDigit && b.isDigit then some (Numeral.digitsValue 0 [a, b], cs) else none
  | _ => none

/-- A given character in front, with the rest. -/
def after? (c : Char) : List Char → Option (List Char)
  | d :: cs => if c = d then some cs else none
  | [] => none

/-- The number of days in a month. -/
def daysIn (year month : Nat) : Nat :=
  match month with
  | 2 => if year % 4 = 0 ∧ (year % 100 ≠ 0 ∨ year % 400 = 0) then 29 else 28
  | 4 | 6 | 9 | 11 => 30
  | _ => 31

/-- A date in front, as a text, with the rest. -/
def date? (cs : List Char) : Option (String × List Char) := do
  let (century, rest) ← twoDigits? cs
  let (years, rest) ← twoDigits? rest
  let (month, rest) ← twoDigits? (← after? '-' rest)
  let (day, rest) ← twoDigits? (← after? '-' rest)
  if 1 ≤ month ∧ month ≤ 12 ∧ 1 ≤ day ∧ day ≤ daysIn (100 * century + years) month then
    pure (String.ofList (cs.take 10), rest)
  else failure

/-- The text of a fraction of a second: nine digits count, and zeros at the end are left out. -/
def fractionText (ds : List Char) : String :=
  match ((ds.take 9).reverse.dropWhile (· = '0')).reverse with
  | [] => ""
  | ds => String.ofList ('.' :: ds)

/-- A time of day in front, as a text, with the rest. -/
def time? (cs : List Char) : Option (String × List Char) := do
  let (hour, rest) ← twoDigits? cs
  let (minute, rest) ← twoDigits? (← after? ':' rest)
  let (second, rest) ← twoDigits? (← after? ':' rest)
  if 23 < hour ∨ 59 < minute ∨ 60 < second then failure
  let whole := String.ofList (cs.take 8)
  match rest with
  | '.' :: ds =>
    if ds.head?.any Char.isDigit then
      pure (whole ++ fractionText (ds.takeWhile Char.isDigit), ds.dropWhile Char.isDigit)
    else failure
  | _ => pure (whole, rest)

/-- An offset from universal time, and nothing else, as a text; none at all is not below zero. -/
def offset? : List Char → Option String
  | ['Z'] | ['z'] => some "Z"
  | c :: cs => do
    let (hour, rest) ← twoDigits? cs
    let (minute, rest) ← twoDigits? (← after? ':' rest)
    if (c = '+' ∨ c = '-') ∧ hour < 24 ∧ minute < 60 ∧ rest = [] then
      pure (String.ofList ((if hour = 0 ∧ minute = 0 then '+' else c) :: cs))
    else failure
  | [] => none

/-- A time, or a date with or without a time, with or without an offset, as a text with a `T`
between date and time. -/
def moment? (cs : List Char) : Option String :=
  match date? cs with
  | none => match time? cs with
    | some (time, []) => some time
    | _ => none
  | some (date, []) => some date
  | some (date, c :: cs) => do
    let (time, rest) ← time? cs
    if c = 'T' ∨ c = 't' ∨ c = ' ' then
      let offset ← if rest = [] then pure "" else offset? rest
      pure (date ++ "T" ++ time ++ offset)
    else failure

/-- What a word stands for. -/
def scalar? (cs : List Char) : Option Document :=
  match cs with
  | ['t', 'r', 'u', 'e'] => some (.bool true)
  | ['f', 'a', 'l', 's', 'e'] => some (.bool false)
  | '0' :: 'x' :: ds => based? 16 ds
  | '0' :: 'o' :: ds => based? 8 ds
  | '0' :: 'b' :: ds => based? 2 ds
  | _ => ((moment? cs).map .date).or ((integer? cs).or ((special? cs).or (real? cs)))

end Influence.Toml
