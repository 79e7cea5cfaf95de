import Influence.Text.Blank
import Influence.Text.Toml.Scalar

/-!
# Timestamps

Moments as snapshots record them: a date, a time of day and an offset from universal time,
as in Internet timestamps.  Fields may have fewer digits and blanks in front, a year with a sign
may have more, a blank may stand between date and time, and the offset may have blanks around
its parts.  They are written in universal time with every digit.
-/

namespace Influence.Timestamp

/-- A number of at most so many digits, behind blanks, and the rest. -/
def number? (width : Nat) (cs : List Char) : Option (Nat × List Char) :=
  let cs := Text.trimStart cs
  let ds := (cs.take width).takeWhile Char.isDigit
  if ds.isEmpty then none else some (Numeral.digitsValue 0 ds, cs.drop ds.length)

/-- A year behind blanks, and the rest: of at most four digits, or of any number of digits
behind a sign. -/
def year? (cs : List Char) : Option (Int × List Char) :=
  match Text.trimStart cs with
  | c :: rest =>
    if c = '+' ∨ c = '-' then
      let ds := rest.takeWhile Char.isDigit
      let n : Int := Numeral.digitsValue 0 ds
      if ds.isEmpty then none
      else some (if c = '-' then -n else n, rest.dropWhile Char.isDigit)
    else (number? 4 (c :: rest)).map fun (n, rest) => (n, rest)
  | [] => none

/-- A given character behind blanks, and the rest. -/
def mark? (c : Char) (cs : List Char) : Option (List Char) := Toml.after? c (Text.trimStart cs)

/-- A day of the calendar. -/
structure Date where
  year : Int
  month : Nat
  day : Nat
  deriving Repr, DecidableEq

namespace Date

/-- The first day that is told apart. -/
def first : Date := ⟨-262143, 1, 1⟩

/-- The last day that is told apart. -/
def last : Date := ⟨262142, 12, 31⟩

/-- The calendar has the day.  Leap years come back every four hundred years. -/
def IsValid (d : Date) : Prop :=
  first.year ≤ d.year ∧ d.year ≤ last.year ∧ 1 ≤ d.month ∧ d.month ≤ 12 ∧ 1 ≤ d.day ∧
    d.day ≤ Toml.daysIn (d.year % 400).toNat d.month

instance (d : Date) : Decidable d.IsValid := by unfold IsValid; infer_instance

end Date

/-- A date in front, and the rest. -/
def date? (cs : List Char) : Option (Date × List Char) := do
  let (year, cs) ← year? cs
  let (month, cs) ← number? 2 (← mark? '-' cs)
  let (day, cs) ← number? 2 (← mark? '-' cs)
  let date : Date := ⟨year, month, day⟩
  if date.IsValid then pure (date, cs) else failure

/-- A fraction of a second, if there is one, and the rest. -/
def fraction? : List Char → Option (List Char)
  | '.' :: c :: cs => if c.isDigit then some (cs.dropWhile Char.isDigit) else none
  | '.' :: [] => none
  | cs => some cs

/-- A time of day in front, in minutes, and the rest. -/
def time? (cs : List Char) : Option (Nat × List Char) := do
  let (hour, cs) ← number? 2 cs
  let (minute, cs) ← number? 2 (← mark? ':' cs)
  let (second, cs) ← number? 2 (← mark? ':' cs)
  if hour < 24 ∧ minute < 60 ∧ second ≤ 60 then (fraction? cs).map (60 * hour + minute, ·)
  else failure

/-- An offset from universal time in minutes, and the rest. -/
def offset? (cs : List Char) : Option (Int × List Char) :=
  match cs with
  | 'Z' :: cs | 'z' :: cs => some (0, cs)
  | c :: rest =>
    if (cs.take 3).map Char.toLower = ['u', 't', 'c'] then some (0, cs.drop 3)
    else if c = '+' ∨ c = '-' ∨ c = '−' then do
      let (hour, rest) ← Toml.twoDigits? rest
      let (minute, rest) ← Toml.twoDigits? (rest.dropWhile fun c => c = ':' || Text.isBlank c)
      let minutes : Int := 60 * hour + minute
      if hour < 24 ∧ minute < 60 then pure (if c = '+' then minutes else -minutes, rest)
      else failure
    else none
  | [] => none

/-- The moment lies on a day that is told apart in universal time too. -/
def isInRange (date : Date) (time : Nat) (offset : Int) : Bool :=
  let minute := time - offset
  !(date = .first && minute < 0) && !(date = .last && 24 * 60 ≤ minute)

/-- The text is a moment. -/
def isValid (s : String) : Bool :=
  ((do
    let (date, cs) ← date? s.toList
    match cs with
    | c :: cs =>
      if c = 'T' ∨ c = 't' ∨ c = ' ' then
        let (time, cs) ← time? cs
        let (offset, rest) ← offset? (Text.trimStart cs)
        pure ((Text.trimStart rest).isEmpty && isInRange date time offset)
      else failure
    | [] => failure) : Option Bool).getD false

/-! ## Writing -/

/-- A number with zeros in front. -/
def padded (width n : Nat) : String :=
  String.ofList (List.replicate (width - n.repr.length) '0') ++ n.repr

/-- The year, month and day of a day counted from the first of January 1970.  A cycle is four
hundred years; inside it the years begin in March, so that a leap day ends its year. -/
def dateOf (day : Nat) : Nat × Nat × Nat :=
  let cycle := (day + 719468) / 146097
  let dayOfCycle := (day + 719468) % 146097
  let year := (dayOfCycle - dayOfCycle / 1460 + dayOfCycle / 36524 - dayOfCycle / 146096) / 365
  let dayOfYear := dayOfCycle - (365 * year + year / 4 - year / 100)
  let month := (5 * dayOfYear + 2) / 153
  let isNext := 10 ≤ month
  (400 * cycle + year + (if isNext then 1 else 0), if isNext then month - 9 else month + 3,
    dayOfYear - (153 * month + 2) / 5 + 1)

/-- A second in nanoseconds. -/
def second : Nat := 1000000000

/-- How many decimals a fraction of a second in nanoseconds takes: by threes, and none that
say nothing. -/
def decimals (nanoseconds : Nat) : Nat :=
  if nanoseconds = 0 then 0
  else if nanoseconds % 1000000 = 0 then 3
  else if nanoseconds % 1000 = 0 then 6
  else 9

/-- The text of a moment, given in nanoseconds from the beginning of 1970, with so many
decimals of the second. -/
def write (places moment : Nat) : String :=
  let seconds := moment / second
  let (year, month, day) := dateOf (seconds / 86400)
  padded 4 year ++ "-" ++ padded 2 month ++ "-" ++ padded 2 day ++ "T" ++
    padded 2 (seconds / 3600 % 24) ++ ":" ++ padded 2 (seconds / 60 % 60) ++ ":" ++
    padded 2 (seconds % 60) ++
    (if places = 0 then "" else "." ++ padded places (moment % second / Nat.pow 10 (9 - places))) ++ "Z"

/-- The text of a moment that loses nothing. -/
def writeExact (moment : Nat) : String := write (decimals (moment % second)) moment

end Influence.Timestamp
