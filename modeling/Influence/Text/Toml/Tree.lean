import Influence.Text.Document

/-!
# TOML tables under construction

Tables come into being in several ways, and these decide what may still be added: a table
under its own header, one that only the header of a table inside it mentions, one made by
a dotted key, or a value that is complete from the start.  A list of tables grows by one
with each of its headers, and later headers and keys mean the last one.
-/

namespace Influence.Toml

/-- How a table came into being. -/
inductive Origin where
  | header
  /-- By the header of a table inside it. -/
  | implied
  | dotted
  deriving DecidableEq

/-- What a key leads to. -/
inductive Entry where
  | value (d : Document)
  | table (origin : Origin) (entries : List (String × Entry))
  /-- A list of tables, the last one first. -/
  | tables (latest : List (String × Entry)) (earlier : List (List (String × Entry)))

/-- The contents of a table. -/
abbrev Entries := List (String × Entry)

mutual

/-- The finished document of an entry. -/
def Entry.document : Entry → Document
  | .value d => d
  | .table _ entries => .table (documents entries)
  | .tables latest earlier => .list (.table (documents latest) :: tables earlier).reverse

/-- The finished documents of a table. -/
def documents : List (String × Entry) → List (String × Document)
  | [] => []
  | (k, e) :: rest => (k, e.document) :: documents rest

/-- The finished tables of a list. -/
def tables : List (List (String × Entry)) → List Document
  | [] => []
  | t :: ts => .table (documents t) :: tables ts

end

/-- Replaces what a key leads to, or adds the key. -/
def assign (key : String) (e : Entry) : Entries → Entries
  | [] => [(key, e)]
  | (k, old) :: rest => if k = key then (k, e) :: rest else (k, old) :: assign key e rest

/-- Changes the table at the end of a path of headers.  Missing tables on the way are
implied, and of a list the last table is meant. -/
def descend? (change : Entries → Option Entries) : List String → Entries → Option Entries
  | [], entries => change entries
  | key :: path, entries =>
    match entries.lookup key with
    | none => do
      let inner ← descend? change path []
      pure (assign key (.table .implied inner) entries)
    | some (.table origin inner) => do
      let inner ← descend? change path inner
      pure (assign key (.table origin inner) entries)
    | some (.tables latest earlier) => do
      let latest ← descend? change path latest
      pure (assign key (.tables latest earlier) entries)
    | some (.value _) => none

/-- Opens the table of a header: a new one, or one that was only implied. -/
def openTable? (key : String) (entries : Entries) : Option Entries :=
  match entries.lookup key with
  | none => some (assign key (.table .header []) entries)
  | some (.table .implied inner) => some (assign key (.table .header inner) entries)
  | some _ => none

/-- Opens another table of a list. -/
def openItem? (key : String) (entries : Entries) : Option Entries :=
  match entries.lookup key with
  | none => some (assign key (.tables [] []) entries)
  | some (.tables latest earlier) => some (assign key (.tables [] (latest :: earlier)) entries)
  | some _ => none

/-- Sets the value of a dotted key.  The tables on the way are made by dotted keys, and the
last of them must be; a table under its own header is not extended. -/
def put? (d : Document) : List String → Entries → Option Entries
  | [], _ => none
  | [key], entries =>
    match entries.lookup key with
    | none => some (assign key (.value d) entries)
    | some _ => none
  | key :: path, entries =>
    match entries.lookup key with
    | none => do
      let inner ← put? d path []
      pure (assign key (.table .dotted inner) entries)
    | some (.table origin inner) =>
      if origin = .header ∨ (path.length = 1 ∧ origin ≠ .dotted) then none
      else do
        let inner ← put? d path inner
        pure (assign key (.table origin inner) entries)
    | some (.tables latest earlier) =>
      if path.length = 1 then none
      else do
        let latest ← put? d path latest
        pure (assign key (.tables latest earlier) entries)
    | some (.value _) => none

end Influence.Toml
