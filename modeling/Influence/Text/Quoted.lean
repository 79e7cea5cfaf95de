import Influence.Text.Unprintable

/-!
# Quoted text

Two ways of writing a text between double quotes.  `json` escapes what JSON requires and
nothing else; `debug` is the form in which log fields show values, with characters that leave no
mark by code point in braces.
-/

namespace Influence.Text

/-- A digit of a hexadecimal number, lower case. -/
def hexDigit (n : Nat) : Char := Nat.digitChar n

/-- The shortest hexadecimal text of a number. -/
def hex (n : Nat) : String := String.ofList (Nat.toDigits 16 n)

/-- Control characters of ASCII. -/
def isControl (c : Char) : Bool := c.toNat < 0x20

/-- One character of a JSON string. -/
def jsonChar (c : Char) : String :=
  match c with
  | '"' => "\\\""
  | '\\' => "\\\\"
  | '\n' => "\\n"
  | '\t' => "\\t"
  | '\r' => "\\r"
  | _ =>
    if c.toNat = 8 then "\\b"
    else if c.toNat = 12 then "\\f"
    else if isControl c then
      "\\u00" ++ String.ofList [hexDigit (c.toNat / 16), hexDigit (c.toNat % 16)]
    else String.ofList [c]

/-- A JSON string. -/
def json (s : String) : String :=
  "\"" ++ String.join (s.toList.map jsonChar) ++ "\""

/-- One character of a quoted log value. -/
def debugChar (c : Char) : String :=
  match c with
  | '"' => "\\\""
  | '\\' => "\\\\"
  | '\n' => "\\n"
  | '\t' => "\\t"
  | '\r' => "\\r"
  | _ =>
    if c.toNat = 0 then "\\0"
    else if isUnprintable c then
      "\\u\x7b" ++ hex c.toNat ++ "\x7d"
    else String.ofList [c]

/-- A quoted log value. -/
def debug (s : String) : String :=
  "\"" ++ String.join (s.toList.map debugChar) ++ "\""

end Influence.Text
