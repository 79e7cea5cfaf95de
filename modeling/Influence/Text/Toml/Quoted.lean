import Influence.Text.Json.Token

/-!
# TOML strings

Four kinds of string, read by one machine: between double quotes with escapes or between
single quotes without, on one line or on several.  In a string of several lines a line
break is a line feed, up to two quotes may stand anywhere, and a backslash at the end of
a line takes all white space up to the next character with it.
-/

namespace Influence.Toml

/-- A kind of string. -/
structure Quote where
  mark : Char
  isMultiline : Bool

/-- Only strings between double quotes have escapes. -/
def Quote.escapes (q : Quote) : Bool := q.mark = '"'

/-- Where the machine stands. -/
inductive Scan where
  | plain
  /-- Behind a backslash. -/
  | escape
  /-- Inside a code point with some digits still to come. -/
  | code (left acc : Nat)
  /-- Behind a backslash at the end of a line; whether the line has ended. -/
  | trim (isPast : Bool)
  /-- Behind a carriage return; whether the line end is dropped. -/
  | carriage (isTrimmed : Bool)
  /-- Behind so many quotes of a string of several lines. -/
  | quotes (n : Nat)

/-- What one character does: goes on, or ends the string in front of or behind it. -/
inductive Step where
  | next (s : Scan) (chars : List Char)
  | stop (chars : List Char) (takes : Bool)

/-- The character that a short escape stands for. -/
def escaped? (c : Char) : Option Char :=
  match c with
  | '"' | '\\' => some c
  | 'b' => some (Char.ofNat 8)
  | 'f' => some (Char.ofNat 12)
  | 'n' => some '\n'
  | 'r' => some '\r'
  | 't' => some '\t'
  | _ => none

/-- Control characters other than the tab. -/
def isForbidden (c : Char) : Bool := (c.toNat < 0x20 && c ≠ '\t') || c.toNat = 0x7f

/-- A character with no escape or quote before it. -/
def plain? (q : Quote) (chars : List Char) (c : Char) : Option Step :=
  if c = q.mark then
    some (if q.isMultiline then .next (.quotes 1) chars else .stop chars true)
  else if c = '\\' && q.escapes then some (.next .escape chars)
  else if c = '\n' && q.isMultiline then some (.next .plain ('\n' :: chars))
  else if c = '\r' && q.isMultiline then some (.next (.carriage false) chars)
  else if isForbidden c then none
  else some (.next .plain (c :: chars))

/-- The character behind a backslash. -/
def escape? (q : Quote) (chars : List Char) (c : Char) : Option Step :=
  if c = 'u' then some (.next (.code 4 0) chars)
  else if c = 'U' then some (.next (.code 8 0) chars)
  else if q.isMultiline && (c = ' ' || c = '\t') then some (.next (.trim false) chars)
  else if q.isMultiline && c = '\n' then some (.next (.trim true) chars)
  else if q.isMultiline && c = '\r' then some (.next (.carriage true) chars)
  else (escaped? c).map fun c => .next .plain (c :: chars)

/-- A finished code point, if it is one. -/
def scalarValue? (n : Nat) : Option Char :=
  if n < 0xd800 ∨ (0xe000 ≤ n ∧ n < 0x110000) then some (Char.ofNat n) else none

/-- Reads one character. -/
def step? (q : Quote) (chars : List Char) (c : Char) : Scan → Option Step
  | .plain => plain? q chars c
  | .escape => escape? q chars c
  | .code left acc => do
    let acc := 16 * acc + (← Json.hexValue? c)
    if left ≤ 1 then pure (.next .plain ((← scalarValue? acc) :: chars))
    else pure (.next (.code (left - 1) acc) chars)
  | .trim isPast =>
    if c = ' ' || c = '\t' then some (.next (.trim isPast) chars)
    else if c = '\n' then some (.next (.trim true) chars)
    else if c = '\r' then some (.next (.carriage true) chars)
    else if isPast then plain? q chars c
    else none
  | .carriage isTrimmed =>
    if c = '\n' then
      some (if isTrimmed then .next (.trim true) chars else .next .plain ('\n' :: chars))
    else none
  | .quotes n =>
    if c = q.mark then some (.next (.quotes (n + 1)) chars)
    else if n < 3 then plain? q (List.replicate n q.mark ++ chars) c
    else if n ≤ 5 then some (.stop (List.replicate (n - 3) q.mark ++ chars) false)
    else none

/-- The rest of a string and what follows it. -/
def scan? (q : Quote) : Scan → List Char → List Char → Option (List Char × List Char)
  | .quotes n, chars, [] =>
    if 3 ≤ n ∧ n ≤ 5 then some (List.replicate (n - 3) q.mark ++ chars, []) else none
  | _, _, [] => none
  | s, chars, c :: cs =>
    match step? q chars c s with
    | none => none
    | some (.next s chars) => scan? q s chars cs
    | some (.stop chars takes) => some (chars, if takes then cs else c :: cs)

/-- A string behind its opening quotes, and what follows it. -/
def string? (q : Quote) (cs : List Char) : Option (String × List Char) :=
  let cs := match q.isMultiline, cs with
    | true, '\n' :: cs => cs
    | true, '\r' :: '\n' :: cs => cs
    | _, _ => cs
  (scan? q .plain [] cs).map fun (chars, rest) => (String.ofList chars.reverse, rest)

/-- A string of one line in front, and what follows it. -/
def lineString? : List Char → Option (String × List Char)
  | '"' :: cs => string? ⟨'"', false⟩ cs
  | '\'' :: cs => string? ⟨'\'', false⟩ cs
  | _ => none

/-- A string of any kind in front, and what follows it. -/
def anyString? : List Char → Option (String × List Char)
  | '"' :: '"' :: '"' :: cs => string? ⟨'"', true⟩ cs
  | '\'' :: '\'' :: '\'' :: cs => string? ⟨'\'', true⟩ cs
  | cs => lineString? cs

end Influence.Toml
