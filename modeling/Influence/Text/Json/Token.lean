import Influence.Text.Document

/-!
# JSON tokens

A machine that reads a JSON text one character at a time and writes down its tokens.
Numbers and words are collected first and judged when they end, so that a text is refused
as soon as one of them is none of the grammar's.
-/

namespace Influence.Json

/-- A token; numbers and words are documents already.  A string with half a surrogate pair
has no text. -/
inductive Token where
  | openTable
  | closeTable
  | openList
  | closeList
  | comma
  | colon
  | string (s : Option String)
  | value (d : Document)

/-- Half of a surrogate pair that waits for the other half. -/
abbrev Pending := Option Nat

/-- A string as far as it has been read: its characters in reverse, a waiting surrogate, and
whether some surrogate was left alone. -/
structure Partial where
  chars : List Char
  pending : Pending
  broken : Bool

/-- Where the machine stands. -/
inductive State where
  | between
  /-- Inside a number or word, in reverse. -/
  | run (chars : List Char)
  | string (s : Partial)
  /-- Behind a backslash. -/
  | escape (s : Partial)
  /-- Inside a code unit with some hexadecimal digits still to come. -/
  | unicode (s : Partial) (left acc : Nat)

namespace Partial

/-- The empty string. -/
def start : Partial := ⟨[], none, false⟩

/-- Leaves a waiting surrogate alone. -/
def settle (s : Partial) : Partial :=
  { s with pending := none, broken := s.broken || s.pending.isSome }

/-- One more character. -/
def push (s : Partial) (c : Char) : Partial :=
  let s := s.settle
  { s with chars := c :: s.chars }

/-- One more code unit.  A high surrogate waits, and a low one completes it. -/
def pushUnit (s : Partial) (unit : Nat) : Partial :=
  if 0xd800 ≤ unit ∧ unit < 0xdc00 then { s.settle with pending := some unit }
  else if 0xdc00 ≤ unit ∧ unit < 0xe000 then
    match s.pending with
    | some high =>
      let c := Char.ofNat (0x10000 + (high - 0xd800) * 0x400 + (unit - 0xdc00))
      { s with chars := c :: s.chars, pending := none }
    | none => { s with broken := true }
  else s.push (Char.ofNat unit)

/-- The text of the finished string. -/
def text? (s : Partial) : Option String :=
  let s := s.settle
  if s.broken then none else some (String.ofList s.chars.reverse)

end Partial

/-- White space between tokens. -/
def isSpace (c : Char) : Bool := c = ' ' || c = '\n' || c = '\t' || c = '\r'

/-- Characters that numbers and words are made of. -/
def isRun (c : Char) : Bool := c.isAlphanum || c = '+' || c = '-' || c = '.'

/-- Digits in front, and what follows them. -/
def digits (cs : List Char) : List Char × List Char :=
  (cs.takeWhile Char.isDigit, cs.dropWhile Char.isDigit)

/-- The parts behind the whole part of a number: a fraction, if there is one, and an
exponent are never empty. -/
def tailParts? (cs : List Char) : Option (List Char × Int) :=
  let (fraction, rest, isGood) := match cs with
    | '.' :: cs => let (ds, rest) := digits cs; (ds, rest, !ds.isEmpty)
    | _ => ([], cs, true)
  if isGood then (Numeral.exponent? rest).map (fraction, ·) else none

/-- A number: an optional minus, a whole part without needless zeros, and the rest.  A
negative zero is real. -/
def number? (cs : List Char) : Option Document := do
  let (isNegative, cs) := match cs with
    | '-' :: cs => (true, cs)
    | _ => (false, cs)
  let (whole, rest) := digits cs
  if whole.isEmpty || (whole.head? == some '0' && whole.length ≠ 1) then failure
  let n := Numeral.digitsValue 0 whole
  if rest.isEmpty ∧ ¬ (isNegative ∧ n = 0) then
    pure (.integer (if isNegative then -n else n))
  else
    let (fraction, exponent) ← tailParts? rest
    let magnitude : Decimal := ⟨Numeral.digitsValue n fraction, exponent - fraction.length⟩
    let x := Numeral.Signed.toFloat ⟨isNegative, magnitude⟩
    pure (if x.isFinite then .real x else .unreadable)

/-- What a run of characters stands for. -/
def run? (cs : List Char) : Option Document :=
  match String.ofList cs with
  | "null" => some .null
  | "true" => some (.bool true)
  | "false" => some (.bool false)
  | _ => number? cs

/-- Reads a character between tokens. -/
def start? (c : Char) : Option (State × List Token) :=
  if isSpace c then some (.between, [])
  else if isRun c then some (.run [c], [])
  else match c with
    | '"' => some (.string .start, [])
    | '{' => some (.between, [.openTable])
    | '}' => some (.between, [.closeTable])
    | '[' => some (.between, [.openList])
    | ']' => some (.between, [.closeList])
    | ',' => some (.between, [.comma])
    | ':' => some (.between, [.colon])
    | _ => none

/-- The value of a hexadecimal digit. -/
def hexValue? (c : Char) : Option Nat :=
  if c.isDigit then some (c.toNat - '0'.toNat)
  else if 'a' ≤ c ∧ c ≤ 'f' then some (c.toNat - 'a'.toNat + 10)
  else if 'A' ≤ c ∧ c ≤ 'F' then some (c.toNat - 'A'.toNat + 10)
  else none

/-- The character that a short escape stands for. -/
def escaped? (c : Char) : Option Char :=
  match c with
  | '"' | '\\' | '/' => some c
  | 'b' => some (Char.ofNat 8)
  | 'f' => some (Char.ofNat 12)
  | 'n' => some '\n'
  | 'r' => some '\r'
  | 't' => some '\t'
  | _ => none

/-- Reads one character. -/
def step? : State → Char → Option (State × List Token)
  | .between, c => start? c
  | .run cs, c =>
    if isRun c then some (.run (c :: cs), [])
    else do
      let d ← run? cs.reverse
      let (state, tokens) ← start? c
      pure (state, .value d :: tokens)
  | .string s, c =>
    if c = '"' then some (.between, [.string s.text?])
    else if c = '\\' then some (.escape s, [])
    else if c.toNat < 0x20 then none
    else some (.string (s.push c), [])
  | .escape s, c =>
    if c = 'u' then some (.unicode s 4 0, [])
    else (escaped? c).map fun c => (.string (s.push c), [])
  | .unicode s left acc, c => do
    let acc := 16 * acc + (← hexValue? c)
    pure (if left ≤ 1 then .string (s.pushUnit acc) else .unicode s (left - 1) acc, [])

/-- The token that the end of the text completes. -/
def finish? : State → Option (List Token)
  | .between => some []
  | .run cs => (run? cs.reverse).map fun d => [.value d]
  | _ => none

/-- The tokens of a text. -/
def tokens? (s : String) : Option (List Token) := do
  let (state, written) ← s.toList.foldlM (fun (state, written) c => do
    let (state, tokens) ← step? state c
    pure (state, tokens.reverse ++ written)) (.between, [])
  pure (written.reverse ++ (← finish? state))

end Influence.Json
