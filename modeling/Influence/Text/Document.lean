import Influence.Number.Numeral

/-!
# Documents

The tree of values that a JSON or TOML text stands for, and how typed values are taken
from it.  Whole numbers and reals are kept apart.  A part that is well formed but has no
value (a number too large for a double, a text with half a surrogate pair) is kept as
`unreadable`: it does harm only where somebody reads it.

A record is a table of named fields, or a list of its fields in declaration order.
Unknown fields are ignored and a known field may appear once; a map takes the last value
of a repeated key.
-/

namespace Influence

/-- A tree of values. -/
inductive Document where
  | null
  | bool (b : Bool)
  | integer (i : Int)
  | real (x : Float)
  | text (s : String)
  /-- A date or a time, as a text. -/
  | date (moment : String)
  | unreadable
  | list (items : List Document)
  | table (entries : List (String × Document))
  deriving Inhabited

namespace Document

/-! ## Plain values -/

/-- A truth value. -/
def bool? : Document → Option Bool
  | bool b => some b
  | _ => none

/-- A text. -/
def text? : Document → Option String
  | text s => some s
  | _ => none

/-- A whole number from zero up to a greatest one. -/
def natural? (limit : Nat) : Document → Option Nat
  | integer i => if 0 ≤ i ∧ i ≤ limit then some i.toNat else none
  | _ => none

/-- The double nearest to a whole number. -/
def nearestFloat (i : Int) : Float :=
  let x := Binary64.nearest i.natAbs 1
  if i < 0 then -x else x

/-- A number; a whole one stands for the nearest double, if it has one. -/
def float? : Document → Option Float
  | real x => some x
  | integer i =>
    let x := nearestFloat i
    if x.isFinite then some x else none
  | _ => none

/-- A value that may be left null. -/
def nullable? {β : Type} (read : Document → Option β) : Document → Option (Option β)
  | null => some none
  | d => (read d).map some

/-- A list of values. -/
def list? {β : Type} (read : Document → Option β) : Document → Option (List β)
  | list items => items.mapM read
  | _ => none

/-! ## Maps -/

/-- Puts a value at its place among ascending keys, instead of an earlier one. -/
def putSorted {β : Type} (key : String) (x : β) : List (String × β) → List (String × β)
  | [] => [(key, x)]
  | (k, y) :: rest =>
    if key < k then (key, x) :: (k, y) :: rest
    else if key = k then (key, x) :: rest
    else (k, y) :: putSorted key x rest

/-- The key that stands in front of a date which is taken for a table. -/
def dateKey : String := "$__toml_private_datetime"

/-- The entries of a table.  A date counts as a table with one entry, which holds its text. -/
def entries? : Document → Option (List (String × Document))
  | table entries => some entries
  | date moment => some [(dateKey, text moment)]
  | _ => none

/-- A map by ascending keys; of a repeated key the last value counts, but all must be
readable. -/
def map? {β : Type} (read : Document → Option β) (d : Document) : Option (List (String × β)) := do
  let pairs ← (← d.entries?).mapM fun (k, d) => (read d).map (k, ·)
  pure (pairs.foldl (fun m (k, x) => putSorted k x m) [])

/-! ## Records -/

/-- The fields of a record that are present. -/
structure Fields where
  get? : String → Option Document

/-- The known fields of a record: by name, none twice, or in order; `isOpen` records may be
lists that go on behind the last field. -/
def fields? (names : List String) (isOpen : Bool) : Document → Option Fields
  | list items =>
    if names.length < items.length ∧ !isOpen then none
    else some ⟨fun name => (names.zip items).lookup name⟩
  | d => d.entries?.bind fun entries =>
    let known := (entries.map (·.1)).filter names.contains
    if known.Nodup then some ⟨fun name => entries.lookup name⟩ else none

/-- A field that must be present. -/
def Fields.required {β : Type} (f : Fields) (name : String) (read : Document → Option β) :
    Option β :=
  (f.get? name).bind read

/-- A field that has a default. -/
def Fields.optional {β : Type} (f : Fields) (name : String) (read : Document → Option β)
    (default : β) : Option β :=
  match f.get? name with
  | some d => read d
  | none => some default

/-- A field that may be missing or null. -/
def Fields.nullable {β : Type} (f : Fields) (name : String) (read : Document → Option β) :
    Option (Option β) :=
  f.optional name (nullable? read) none

end Document

end Influence
