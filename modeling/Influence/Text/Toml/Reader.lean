import Influence.Text.Toml.Quoted
import Influence.Text.Toml.Scalar
import Influence.Text.Toml.Tree

/-!
# Reading TOML

A text is a sequence of lines: headers, which choose the table that follows, and keys with
values.  Lists and tables inside values, and the parts of keys, may be nested only so deep.
Loops are bounded by the length of the text that is left, of which each round takes a part.
-/

namespace Influence.Toml

/-- Reads a part of a text from its start. -/
abbrev Parser := StateT (List Char) Option

/-- How deep values and keys may be nested. -/
def maxDepth : Nat := 80

/-- Blanks inside a line. -/
def isBlank (c : Char) : Bool := c = ' ' || c = '\t'

/-- Leaves out blanks. -/
def skipBlanks : Parser Unit := modify fun cs => cs.dropWhile isBlank

/-- The next character, which stays. -/
def peek : Parser (Option Char) := do pure (← get).head?

/-- Takes a given character. -/
def expect (c : Char) : Parser Unit := do set (← (after? c (← get) : Option _))

/-- Takes what a reader of the front finds. -/
def takeFront {β : Type} (front : List Char → Option (β × List Char)) : Parser β := do
  let (x, rest) ← (front (← get) : Option _)
  set rest
  pure x

/-- Leaves out a comment, which has no control characters but tabs. -/
def skipComment : Parser Unit := do
  if (← peek) = some '#' then
    let cs ← get
    let rest := cs.dropWhile fun c => c ≠ '\n'
    let body := (cs.takeWhile fun c => c ≠ '\n')
    let body := if rest.isEmpty || body.getLast? ≠ some '\r' then body else body.dropLast
    if body.any isForbidden then failure
    set rest

/-- Takes the end of a line, if it is there; the flag says whether it was. -/
def lineEnd : Parser Bool := do
  match ← get with
  | '\n' :: cs | '\r' :: '\n' :: cs => set cs; pure true
  | _ => pure false

/-- Leaves out blanks, comments and line ends. -/
def skipSpace : Parser Unit := do
  let rec go : Nat → Parser Unit
    | 0 => pure ()
    | n + 1 => do
      skipBlanks
      skipComment
      if ← lineEnd then go n
  go ((← get).length + 1)

/-! ## Keys -/

/-- Characters of keys without quotes. -/
def isBare (c : Char) : Bool := c.isAlphanum || c = '_' || c = '-'

/-- One part of a key. -/
def keyPart : Parser String := do
  match ← get with
  | '"' :: _ | '\'' :: _ => takeFront lineString?
  | cs =>
    let bare := cs.takeWhile isBare
    if bare.isEmpty then failure
    set (cs.dropWhile isBare)
    pure (String.ofList bare)

/-- A key: parts with points between them. -/
def key : Parser (List String) := do
  let rec go : Nat → Parser (List String)
    | 0 => failure
    | n + 1 => do
      skipBlanks
      let part ← keyPart
      skipBlanks
      if (← peek) = some '.' then
        expect '.'
        pure (part :: (← go n))
      else pure [part]
  go (maxDepth - 1)

/-! ## Values -/

/-- Characters of values without quotes. -/
def isWord (c : Char) : Bool :=
  c.isAlphanum || c = '_' || c = '-' || c = '+' || c = '.' || c = ':'

/-- A word; behind a date, a blank and a time of day belong to it. -/
def word : Parser (List Char) := do
  let cs ← get
  let first := cs.takeWhile isWord
  match cs.dropWhile isWord with
  | ' ' :: rest =>
    if (date? first).any (·.2.isEmpty) ∧ ((twoDigits? rest).bind fun (_, r) => after? ':' r).isSome then
      set (rest.dropWhile isWord)
      pure (first ++ ' ' :: rest.takeWhile isWord)
    else
      set (' ' :: rest)
      pure first
  | rest =>
    set rest
    pure first

/-- The items of a list, up to its end; a comma may follow the last one. -/
def items (item : Parser Document) : Nat → Parser (List Document)
  | 0 => failure
  | n + 1 => do
    skipSpace
    if (← peek) = some ']' then
      expect ']'
      pure []
    else
      let d ← item
      skipSpace
      if (← peek) = some ',' then
        expect ','
        pure (d :: (← items item n))
      else
        expect ']'
        pure [d]

/-- The entries of a table inside a value, up to its end, on one line. -/
def entries (item : Parser Document) : Nat → Entries → Parser Entries
  | 0, _ => failure
  | n + 1, table => do
    let path ← key
    expect '='
    skipBlanks
    let d ← item
    let table ← (put? d path table : Option _)
    skipBlanks
    if (← peek) = some ',' then
      expect ','
      entries item n table
    else
      expect '}'
      pure table

/-- A string or a word. -/
def simpleValue : Parser Document := do
  match ← peek with
  | some '"' | some '\'' => .text <$> takeFront anyString?
  | _ => do
    let w ← word
    (scalar? w : Option _)

/-- A value with at most so many lists and tables around each other. -/
def value : Nat → Parser Document
  | 0 => simpleValue
  | depth + 1 => do
    match ← peek with
    | some '[' =>
      expect '['
      .list <$> items (value depth) ((← get).length + 1)
    | some '{' =>
      expect '{'
      skipBlanks
      if (← peek) = some '}' then
        expect '}'
        pure (.table [])
      else (fun table => .table (documents table)) <$>
        entries (value depth) ((← get).length + 1) []
    | _ => simpleValue

/-! ## Lines -/

/-- The text read so far: all tables, and the path of the one that keys belong to. -/
structure Progress where
  root : Entries
  current : List String

/-- A header: its path, and whether it opens another table of a list. -/
def header : Parser (List String × Bool) := do
  expect '['
  if (← peek) = some '[' then
    expect '['
    let path ← key
    expect ']'
    expect ']'
    pure (path, true)
  else
    let path ← key
    expect ']'
    pure (path, false)

/-- Opens the table of a header. -/
def Progress.open? (p : Progress) (path : List String) (isItem : Bool) : Option Progress := do
  let last ← path.getLast?
  let root ← descend? (if isItem then openItem? last else openTable? last) path.dropLast p.root
  pure ⟨root, path⟩

/-- Sets a key of the current table. -/
def Progress.put? (p : Progress) (path : List String) (d : Document) : Option Progress := do
  let root ← descend? (Toml.put? d path) p.current p.root
  pure { p with root }

/-- A line that is neither blank nor a comment. -/
def statement (p : Progress) : Parser Progress := do
  if (← peek) = some '[' then
    let (path, isItem) ← header
    (p.open? path isItem : Option _)
  else
    let path ← key
    expect '='
    skipBlanks
    let d ← value (maxDepth - 1)
    (p.put? path d : Option _)

/-- The lines that are left. -/
def lines : Nat → Progress → Parser Progress
  | 0, _ => failure
  | n + 1, p => do
    skipSpace
    if (← get).isEmpty then pure p
    else
      let p ← statement p
      skipBlanks
      skipComment
      if (← get).isEmpty then pure p
      else if ← lineEnd then lines n p
      else failure

/-- The document of a TOML text; a byte order mark in front is left out. -/
def read? (s : String) : Option Document := do
  let cs := match s.toList with
    | '\uFEFF' :: cs => cs
    | cs => cs
  let (p, _) ← (lines (cs.length + 1) ⟨[], []⟩).run cs
  pure (.table (documents p.root))

end Influence.Toml
