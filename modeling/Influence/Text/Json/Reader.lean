import Influence.Text.Json.Token

/-!
# Reading JSON

Tokens are put together by a machine with a stack of open lists and tables, one token at
a time.  It accepts exactly one value, with commas between neighbours and a colon behind
each key.
-/

namespace Influence.Json

/-- A list or table that is still open, its parts in reverse.  `key` is the key whose value
comes next; a key without a text makes the whole table unreadable. -/
inductive Frame where
  | list (items : List Document)
  | table (entries : List (String × Document)) (key : Option String) (broken : Bool)

/-- What may come next. -/
inductive Expecting where
  | value
  /-- A value, or the end of a list that has just begun. -/
  | firstItem
  /-- A key, or the end of a table that has just begun. -/
  | firstKey
  | key
  | colon
  /-- A comma, or the end of what is open. -/
  | next

/-- Where the machine stands; `done` holds the value once nothing is open. -/
inductive Progress where
  | reading (expecting : Expecting) (stack : List Frame)
  | done (d : Document)

/-- Puts a finished value where it belongs. -/
def place (d : Document) : List Frame → Progress
  | [] => .done d
  | .list items :: rest => .reading .next (.list (d :: items) :: rest)
  | .table entries key broken :: rest =>
    .reading .next (.table ((key.getD "", d) :: entries) none broken :: rest)

/-- Closes the innermost list. -/
def closeList? : List Frame → Option Progress
  | .list items :: rest => some (place (.list items.reverse) rest)
  | _ => none

/-- Closes the innermost table. -/
def closeTable? : List Frame → Option Progress
  | .table entries _ broken :: rest =>
    some (place (if broken then .unreadable else .table entries.reverse) rest)
  | _ => none

/-- Notes the key of the next entry. -/
def setKey? (key : Option String) : List Frame → Option Progress
  | .table entries _ broken :: rest =>
    some (.reading .colon (.table entries key (broken || key.isNone) :: rest))
  | _ => none

/-- Reads a token where a value may stand. -/
def startValue? (stack : List Frame) : Token → Option Progress
  | .value d => some (place d stack)
  | .string (some s) => some (place (.text s) stack)
  | .string none => some (place .unreadable stack)
  | .openList => some (.reading .firstItem (.list [] :: stack))
  | .openTable => some (.reading .firstKey (.table [] none false :: stack))
  | _ => none

/-- Reads one token. -/
def advance? : Progress → Token → Option Progress
  | .done _, _ => none
  | .reading expecting stack, token =>
    match expecting, token with
    | .firstItem, .closeList => closeList? stack
    | .firstItem, token | .value, token => startValue? stack token
    | .firstKey, .closeTable => closeTable? stack
    | .firstKey, .string s | .key, .string s => setKey? s stack
    | .colon, .colon => some (.reading .value stack)
    | .next, .comma =>
      match stack with
      | .list _ :: _ => some (.reading .value stack)
      | _ => some (.reading .key stack)
    | .next, .closeList => closeList? stack
    | .next, .closeTable => closeTable? stack
    | _, _ => none

/-- The document of a JSON text. -/
def read? (s : String) : Option Document := do
  match ← (← tokens? s).foldlM advance? (.reading .value []) with
  | .done d => pure d
  | .reading .. => failure

end Influence.Json
