import Influence.Text.Alphabetic
import Influence.Text.Blank
import Influence.Text.Pattern.Basic

/-!
# Modes

What the flags of a pattern's notation say, and the sets that characters stand for under them.
Flags hold from where they are set to the end of the group.

Only the letters of ASCII are known by case and kind.  A pattern that asks for more of characters
in general, as long as `unicode` has not been turned off, is refused; so is one that without
`unicode` could take a part of a character.
-/

namespace Influence

/-- What the flags say. -/
structure Mode where
  /-- The case of letters does not count. -/
  anyCase : Bool
  /-- Lines have boundaries of their own. -/
  multiLine : Bool
  /-- The dot stands for line feeds too. -/
  dotAll : Bool
  /-- Repetitions prefer to be short, and with a question mark to be long. -/
  reluctant : Bool
  /-- Patterns are about characters in general, not only those of ASCII. -/
  unicode : Bool
  /-- Carriage returns end lines too. -/
  crlf : Bool
  /-- Blanks and comments may stand between the parts of a pattern. -/
  spaced : Bool
  deriving Repr, DecidableEq

namespace Mode

/-- No flag is set but the one for characters in general. -/
def initial : Mode := ⟨false, false, false, false, true, false, false⟩

/-- Turns a flag on or off. -/
def turn? (mode : Mode) (flag : Char) (on : Bool) : Option Mode :=
  match flag with
  | 'i' => some { mode with anyCase := on }
  | 'm' => some { mode with multiLine := on }
  | 's' => some { mode with dotAll := on }
  | 'U' => some { mode with reluctant := on }
  | 'u' => some { mode with unicode := on }
  | 'R' => some { mode with crlf := on }
  | 'x' => some { mode with spaced := on }
  | _ => none

/-- Reads flags up to a colon or a closing parenthesis, and gives the mode, all that was read, the
mark at the end and what follows it.  No flag comes twice; a hyphen turns those behind it off. -/
def flags? (mode : Mode) (seen : List Char) : List Char → Option (Mode × List Char × Char × List Char)
  | [] => none
  | c :: cs =>
    if c = ':' ∨ c = ')' then if seen.head? = some '-' then none else some (mode, seen, c, cs)
    else if seen.contains c then none
    else if c = '-' then mode.flags? (c :: seen) cs
    else (mode.turn? c !(seen.contains '-')).bind fun mode => mode.flags? (c :: seen) cs

/-! ## Blanks -/

/-- A text without the blanks and comments at its start. -/
def withoutSpace : Bool → List Char → List Char
  | _, [] => []
  | true, c :: cs => withoutSpace (c != '\n') cs
  | false, c :: cs =>
    if c = '#' then withoutSpace true cs
    else if Text.isBlank c then withoutSpace false cs
    else c :: cs

/-- Skips what may stand between the parts of a pattern. -/
def skip (mode : Mode) (cs : List Char) : List Char :=
  if mode.spaced then withoutSpace false cs else cs

/-- The character behind a hyphen in a set.  Behind blanks the mark of a comment is skipped, but
not the comment. -/
def afterHyphen (mode : Mode) (cs : List Char) : Option Char :=
  if mode.spaced then
    let first := match Text.trimStart cs with
      | '#' :: cs => (Text.trimStart cs).head?
      | cs => cs.head?
    first.or cs.head?
  else cs.head?

/-! ## Sets -/

/-- The set for a character that stands for itself.  `isByte` says that it is written as a byte. -/
def literal? (mode : Mode) (c : Char) (isByte : Bool) : Option CharSet :=
  if mode.unicode then if mode.anyCase then none else some (.one c)
  else if c.toNat < 0x80 then some (if mode.anyCase then (CharSet.one c).anyCase else .one c)
  else if isByte then none
  else some (.one c)

/-- A member of a set in brackets, given as a set. -/
def member? (mode : Mode) (s : CharSet) : Option CharSet :=
  if mode.unicode then if mode.anyCase then none else some s
  else some (if mode.anyCase then s.anyCase else s)

/-- The range from one character to another in a set in brackets. -/
def range? (mode : Mode) (first last : Char) : Option CharSet :=
  if last < first ∨ (mode.unicode = false ∧ 0x80 ≤ last.toNat) then none
  else mode.member? (.range first last)

/-- All else than a set. -/
def complement? (mode : Mode) (s : CharSet) : Option CharSet :=
  if mode.unicode then some s.complement else none

/-- The set that a letter behind a backslash stands for. -/
def named? (mode : Mode) (letter : Char) : Option CharSet :=
  if mode.unicode then none
  else match letter with
    | 'd' => some .digit
    | 's' => some .space
    | 'w' => some .word
    | _ => none

/-- The set of the dot. -/
def dot? (mode : Mode) : Option CharSet :=
  if !mode.unicode then none
  else if mode.dotAll then some .full
  else if mode.crlf then some ((CharSet.one '\r').union (.one '\n')).complement
  else some (CharSet.one '\n').complement

/-- The boundaries of words are known for words of ASCII. -/
def wordBoundary? (mode : Mode) (b : Boundary) : Option Boundary :=
  if mode.unicode then none else some b

/-- The boundary of the circumflex. -/
def start (mode : Mode) : Boundary := if mode.multiLine then .lineStart mode.crlf else .textStart

/-- The boundary of the dollar sign. -/
def «end» (mode : Mode) : Boundary := if mode.multiLine then .lineEnd mode.crlf else .textEnd

/-! ## Lemmas -/

/-- A character that stands for itself is in its set. -/
theorem contains_of_literal? {mode : Mode} {c : Char} {isByte : Bool} {s : CharSet}
    (h : mode.literal? c isByte = some s) : s.contains c = true := by
  have hc : (CharSet.one c).contains c = true := by simp [CharSet.contains_one]
  unfold literal? at h
  split at h
  · split at h
    · cases h
    · cases h; exact hc
  · split at h
    · cases h
      split
      · simp [CharSet.contains, hc]
      · exact hc
    · split at h
      · cases h
      · cases h; exact hc

/-- Without `spaced` nothing is skipped. -/
theorem skip_of_not_spaced {mode : Mode} (h : mode.spaced = false) (cs : List Char) :
    mode.skip cs = cs := by
  simp [skip, h]

end Mode

end Influence
