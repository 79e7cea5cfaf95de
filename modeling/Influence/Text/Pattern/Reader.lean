import Influence.Text.Pattern.Brackets

/-!
# Reading patterns

The notation of patterns: groups, alternatives, repetitions, the dot, boundaries, escapes and
sets in brackets.  A repetition is for the part in front of it, and with a question mark behind
it prefers the other length.  Flags in parentheses are a part that cannot be repeated.

Counts in braces are refused, since the brace that ends them would end the field that a pattern
is for.
-/

namespace Influence

namespace Pattern

/-- A part of a pattern, with how deep its notation is nested. -/
structure Part where
  pattern : Pattern
  depth : Nat
  deriving Repr, DecidableEq

namespace Part

/-- How deep a notation may be nested. -/
def depthLimit : Nat := 250

/-- The depth of parts side by side. -/
def depthOf (depths : List Nat) : Nat :=
  depths.foldr max 0 + if depths.length < 2 then 0 else 1

/-- Parts one after another, the last one first; where one is missing flags were set. -/
def ofReversed (parts : List (Option Part)) : Part :=
  ⟨sequenceOf (parts.reverse.map fun p => (p.map pattern).getD .empty),
    depthOf (parts.map fun p => (p.map depth).getD 0)⟩

/-- Alternatives, the last one first. -/
def ofAlternatives (parts : List Part) : Part :=
  ⟨firstOf (parts.reverse.map pattern), depthOf (parts.map depth)⟩

end Part

/-- The name of a group begins with a letter or a low line. -/
def isNameStart (c : Char) : Bool := c == '_' || Text.isAlphabetic c

/-- The name of a group goes on with letters, numbers and some marks. -/
def isNamePart (c : Char) : Bool := ['_', '.', '[', ']'].contains c || Text.isAlphanumeric c

/-- Reads the name of a group, which no other group has. -/
def name? (names : List String) (cs : List Char) : Option (String × List Char) :=
  match cs.takeWhile (· != '>'), cs.dropWhile (· != '>') with
  | c :: part, _ :: cs =>
    let name := String.ofList (c :: part)
    if isNameStart c && part.all isNamePart && !names.contains name then some (name, cs) else none
  | _, _ => none

/-- What an opening parenthesis begins. -/
inductive Opening where
  /-- Flags for the rest of the group around them. -/
  | flags (mode : Mode)
  /-- A group, with the names so far. -/
  | group (mode : Mode) (names : List String)

/-- Reads what follows an opening parenthesis. -/
def opening? (mode : Mode) (names : List String) (cs : List Char) :
    Option (Opening × List Char) :=
  match mode.skip cs with
  | '?' :: 'P' :: '<' :: cs | '?' :: '<' :: cs =>
    (name? names cs).map fun (name, cs) => (.group mode (name :: names), cs)
  | '?' :: cs => do
    let (mode, seen, mark, cs) ← mode.flags? [] cs
    if mark = ':' then pure (.group mode names, cs)
    else if seen.isEmpty then failure
    else pure (.flags mode, cs)
  | cs => some (.group mode names, cs)

/-- Reads one character, a set or a boundary. -/
def atom? (mode : Mode) : List Char → Option (Part × List Char)
  | [] => none
  | '[' :: cs => (BracketSet.read? mode cs).map fun (s, cs) => (⟨oneOf s.set, s.depth⟩, cs)
  | '\\' :: cs => do
    let (escape, cs) ← Escape.read? mode cs
    let pattern ← match escape with
      | .literal c isByte => (mode.literal? c isByte).map oneOf
      | .set s => some (oneOf s)
      | .boundary b => some (.boundary b)
    pure (⟨pattern, 0⟩, cs)
  | '.' :: cs => mode.dot?.map fun s => (⟨oneOf s, 0⟩, cs)
  | '^' :: cs => some (⟨.boundary mode.start, 0⟩, cs)
  | '$' :: cs => some (⟨.boundary mode.end, 0⟩, cs)
  | c :: cs => if c = '{' then none else (mode.literal? c false).map fun s => (⟨oneOf s, 0⟩, cs)

/-- Reads the question mark behind a repetition, and tells whether the repetition is greedy. -/
def greed (mode : Mode) : List Char → Bool × List Char
  | '?' :: cs => (mode.reluctant, cs)
  | cs => (!mode.reluctant, cs)

/-- Repeats the last part. -/
def repeated? (repetition : Bool → Pattern → Pattern) (greedy : Bool) :
    List (Option Part) → Option (List (Option Part))
  | some p :: parts => some (some ⟨repetition greedy p.pattern, p.depth + 1⟩ :: parts)
  | _ => none

/-- Reads alternatives up to the end or to a closing parenthesis, and gives them with the names
of groups and with what follows.  `chosen` are the alternatives before this one and `parts` its
parts so far.  Each step takes a character at least. -/
def alternatives? : Nat → Mode → List String → List Part → List (Option Part) → List Char →
    Option (Part × List String × List Char)
  | 0, _, _, _, _, _ => none
  | n + 1, mode, names, chosen, parts, cs =>
    let line := Part.ofReversed parts
    let repetition (f : Bool → Pattern → Pattern) (cs : List Char) := do
      let (greedy, cs) := greed mode cs
      alternatives? n mode names chosen (← repeated? f greedy parts) cs
    match mode.skip cs with
    | [] => some (.ofAlternatives (line :: chosen), names, [])
    | ')' :: cs => some (.ofAlternatives (line :: chosen), names, ')' :: cs)
    | '|' :: cs => alternatives? n mode names (line :: chosen) [] cs
    | '*' :: cs => repetition star cs
    | '+' :: cs => repetition plus cs
    | '?' :: cs => repetition optional cs
    | '(' :: cs => do
      match ← opening? mode names cs with
      | (.flags mode, cs) => alternatives? n mode names chosen (none :: parts) cs
      | (.group inner names, cs) =>
        match ← alternatives? n inner names [] [] cs with
        | (p, names, ')' :: cs) =>
          alternatives? n mode names chosen (some { p with depth := p.depth + 1 } :: parts) cs
        | _ => none
    | cs => do
      let (p, cs) ← atom? mode cs
      alternatives? n mode names chosen (some p :: parts) cs

/-- Reads a pattern. -/
def read? (s : String) : Option Pattern :=
  match alternatives? (s.toList.length + 1) .initial [] [] [] s.toList with
  | some (p, _, []) => if p.depth ≤ Part.depthLimit then some p.pattern else none
  | _ => none

end Pattern

end Influence
