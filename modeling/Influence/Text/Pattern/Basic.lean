import Influence.Text.CharSet

/-!
# Patterns

Regular expressions as trees.  Where a pattern offers a choice, one way is preferred to the
other: the left one of two alternatives, and the repetition that goes on or the one that stops,
as `greedy` says.  Preference matters, since of the matches that begin at one place only the most
preferred counts.
-/

namespace Influence

/-- What can be asked of a position between characters. -/
inductive Boundary where
  | textStart
  | textEnd
  /-- Lines end at line feeds, or with `crlf` at a carriage return with or without one too. -/
  | lineStart (crlf : Bool)
  | lineEnd (crlf : Bool)
  /-- A word begins or ends. -/
  | word
  | noWord
  | wordStart
  | wordEnd
  deriving Repr, DecidableEq

namespace Boundary

/-- There is a character of a word. -/
def inWord (c : Option Char) : Bool := c.any CharSet.word.contains

/-- The boundary lies between two characters, either of which may be missing. -/
def holds (before after : Option Char) : Boundary → Bool
  | textStart => before.isNone
  | textEnd => after.isNone
  | lineStart false => before.isNone || before == some '\n'
  | lineStart true =>
    before.isNone || before == some '\n' || (before == some '\r' && after != some '\n')
  | lineEnd false => after.isNone || after == some '\n'
  | lineEnd true =>
    after.isNone || after == some '\r' || (after == some '\n' && before != some '\r')
  | word => inWord before != inWord after
  | noWord => inWord before == inWord after
  | wordStart => !inWord before && inWord after
  | wordEnd => inWord before && !inWord after

/-- The boundary is there whatever follows. -/
def holdsBehind (before : Option Char) : Boundary → Bool
  | textStart => before.isNone
  | lineStart _ => before.isNone || before == some '\n'
  | _ => false

/-- What is there whatever follows is there. -/
theorem holds_of_holdsBehind {before : Option Char} {b : Boundary}
    (h : b.holdsBehind before = true) (after : Option Char) : b.holds before after = true := by
  cases b <;> try cases h
  case textStart => exact h
  case lineStart crlf => cases crlf <;> simp_all [holds, holdsBehind]

end Boundary

/-- A regular expression. -/
inductive Pattern where
  /-- The text without characters. -/
  | empty
  | oneOf (set : CharSet)
  | boundary (b : Boundary)
  /-- One part, then the other. -/
  | sequence (p q : Pattern)
  /-- The left part if it can be. -/
  | either (p q : Pattern)
  /-- Once or not at all. -/
  | optional (greedy : Bool) (p : Pattern)
  /-- Any number of times, none included. -/
  | star (greedy : Bool) (p : Pattern)
  /-- Once or more often. -/
  | plus (greedy : Bool) (p : Pattern)
  deriving Repr, DecidableEq

namespace Pattern

/-- The pattern may take no character. -/
def takesEmpty : Pattern → Bool
  | empty | boundary _ | optional _ _ | star _ _ => true
  | oneOf _ => false
  | sequence p q => p.takesEmpty && q.takesEmpty
  | either p q => p.takesEmpty || q.takesEmpty
  | plus _ p => p.takesEmpty

/-- One part after another. -/
def sequenceOf : List Pattern → Pattern
  | [] => empty
  | [p] => p
  | p :: ps => p.sequence (sequenceOf ps)

/-- The first part that can be. -/
def firstOf : List Pattern → Pattern
  | [] => empty
  | [p] => p
  | p :: ps => p.either (firstOf ps)

/-- A sequence takes no character if all its parts can do so. -/
theorem takesEmpty_sequenceOf (ps : List Pattern) :
    (sequenceOf ps).takesEmpty = ps.all takesEmpty := by
  fun_induction sequenceOf ps with
  | case1 => rfl
  | case2 p => simp
  | case3 p ps _ ih => simp [takesEmpty, ih]

end Pattern

end Influence
