import Influence.Log.Level
import Influence.Number.Numeral
import Influence.Text.Alphanumeric
import Influence.Text.Pattern.Places
import Influence.Text.Pattern.Reader

/-!
# Log directives

A directive names what it is about and how much of it is shown:
`component[span{field=value}]=level`.  Every part may be left out, though not all of them; without
a level everything is shown, and a text that is the name of a level is a level for everything.

The shape of a directive is found without the blanks around it, and its parts are then cut from
the text with them, so that blanks in front shift all parts.
-/

namespace Influence

/-- What a field is asked to be. -/
inductive ValueRule where
  /-- A truth value or a number, which no text is. -/
  | literal (text : String)
  | pattern (text : String) (pattern : Pattern)
  deriving Repr, DecidableEq

namespace ValueRule

/-- Reads what a field is asked to be. -/
def read? (s : String) : Option ValueRule :=
  if s = "true" ∨ s = "false" ∨ (Numeral.float? s.toList).isSome then some (literal s)
  else (Pattern.read? s).map (pattern s)

/-- A text is what is asked for. -/
def accepts : ValueRule → String → Bool
  | literal _, _ => false
  | pattern _ p, s => p.accepts s.toList

end ValueRule

/-- A field that must be there, and perhaps be something. -/
structure FieldRule where
  name : String
  value : Option ValueRule
  deriving Repr, DecidableEq

/-- Reads a field with what stands behind the first equals sign, up to another one. -/
def FieldRule.read? (s : String) : Option FieldRule :=
  match s.splitOn "=" with
  | name :: value :: _ => (ValueRule.read? value).map fun v => ⟨name, some v⟩
  | _ => if s = "" then none else some ⟨s, none⟩

/-- How much is shown of some components, of what happens inside some spans, or both. -/
structure LogDirective where
  /-- The components are those whose names start with this text. -/
  component : String
  /-- The name of the spans. -/
  span : Option String
  /-- What the spans or events know. -/
  field : Option FieldRule
  level : LogLevel
  deriving Repr, DecidableEq

namespace LogDirective

/-- A directive about components. -/
def ofComponent (component : String) (level : LogLevel) : LogDirective :=
  ⟨component, none, none, level⟩

/-- The level that a directive names, by name in any case or by number. -/
def level? (s : String) : Option LogLevel :=
  match Numeral.natural? s.toList with
  | some n => [.off, .error, .warn, .info, .debug, .trace][n]?
  | none => LogLevel.all.find? fun l => l.text == foldCase s

/-! ## Reading -/

/-- The characters that a component may begin with. -/
def isInitial (c : Char) : Bool := Text.isAlphanumeric c || c = '_' || c = ':' || c = '-'

/-- The text in front of a byte position and the text behind it, if the position lies between
characters. -/
def splitAt? : Nat → List Char → Option (List Char × List Char)
  | 0, cs => some ([], cs)
  | _ + 1, [] => none
  | n + 1, c :: cs =>
    if c.utf8Size ≤ n + 1 then
      (splitAt? (n + 1 - c.utf8Size) cs).map fun (front, rest) => (c :: front, rest)
    else none

/-- Nothing is lost at a position. -/
theorem eq_append_of_splitAt? {n : Nat} {cs front rest : List Char}
    (h : splitAt? n cs = some (front, rest)) : cs = front ++ rest := by
  induction cs generalizing n front with
  | nil => cases n <;> simp_all [splitAt?]
  | cons c cs ih =>
    cases n with
    | zero => simp_all [splitAt?]
    | succ n =>
      simp only [splitAt?] at h
      split at h
      · obtain ⟨⟨front', rest'⟩, hs, heq⟩ := Option.map_eq_some_iff.1 h
        obtain ⟨rfl, rfl⟩ := Prod.mk.inj heq
        rw [ih hs]
        rfl
      · cases h

/-- The text between two byte positions, if both lie between characters. -/
def between? (cs : List Char) (first last : Nat) : Option String := do
  let (_, rest) ← splitAt? first cs
  let (part, _) ← splitAt? (last - first) rest
  pure (String.ofList part)

/-- The part of a directive that is being read, with the position where it begins. -/
inductive Place where
  | start
  /-- A level, or a component that more may follow. -/
  | word (first : Nat)
  | span (first : Nat)
  | field (first : Nat)
  /-- Behind a field. -/
  | fieldEnd
  /-- Behind the brackets. -/
  | spanEnd
  | level (first : Nat)
  deriving Repr, DecidableEq

/-- A directive as far as it is read, without its level. -/
structure Draft where
  place : Place
  component : String
  span : Option String
  field : Option FieldRule

/-- Nothing is read. -/
def Draft.start : Draft := ⟨.start, "", none, none⟩

/-- Takes the character at a position. -/
def Draft.step (text : List Char) (d : Draft) (position : Nat) (c : Char) : Option Draft :=
  match d.place with
  | .start =>
    if c = '[' then some { d with place := .span (position + 1) }
    else if isInitial c then some { d with place := .word position }
    else none
  | .word first =>
    if c = '=' ∨ c = '[' then
      (between? text first position).map fun component =>
        { d with component, place := if c = '=' then .level (position + 1) else .span (position + 1) }
    else some d
  | .span first =>
    if c = ']' then
      (between? text first position).map fun span => { d with span, place := .spanEnd }
    else if c = '{' then
      (between? text first position).map fun span =>
        { d with span := if span = "" then none else some span, place := .field (position + 1) }
    else some d
  | .field first =>
    if c = '}' then do
      let field ← FieldRule.read? (← between? text first position)
      pure { d with field, place := .fieldEnd }
    else some d
  | .fieldEnd => if c = ']' then some { d with place := .spanEnd } else none
  | .spanEnd => if c = '=' then some { d with place := .level (position + 1) } else none
  | .level _ => some d

/-- Takes characters from a position on. -/
def Draft.steps (text : List Char) (d : Draft) (position : Nat) : List Char → Option Draft
  | [] => some d
  | c :: cs => do (← d.step text position c).steps text (position + c.utf8Size) cs

/-- The directive, when the text is over. -/
def Draft.finish? (text : List Char) (d : Draft) : Option LogDirective :=
  let rest? (first : Nat) := between? text first (String.ofList text).utf8ByteSize
  match d.place with
  | .word first => (rest? first).map fun word => match level? word with
    | some level => ofComponent "" level
    | none => ofComponent word .trace
  | .level first => do
    let word ← rest? first
    let level ← if word = "" then pure .trace else level? word
    pure ⟨d.component, d.span, d.field, level⟩
  | .spanEnd => some ⟨d.component, d.span, d.field, .trace⟩
  | _ => none

/-- Reads one directive. -/
def read? (s : String) : Option LogDirective := do
  (← Draft.start.steps s.toList 0 (Text.trim s.toList)).finish? s.toList

end LogDirective

end Influence
