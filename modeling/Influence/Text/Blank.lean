/-!
# Blank characters, fields and lines

Blank characters are those with the Unicode property White_Space.  Fields are the
longest runs without one, and a line ends at a line feed.
-/

namespace Influence.Text

/-- The character is white space in Unicode. -/
def isBlank (c : Char) : Bool :=
  let n := c.toNat
  (9 ≤ n && n ≤ 13) || n == 0x20 || n == 0x85 || n == 0xa0 || n == 0x1680 ||
    (0x2000 ≤ n && n ≤ 0x200a) || n == 0x2028 || n == 0x2029 || n == 0x202f || n == 0x205f ||
    n == 0x3000

/-- Every character that the core library calls white space is blank. -/
theorem isBlank_of_isWhitespace {c : Char} (h : c.isWhitespace = true) : isBlank c = true := by
  simp only [Char.isWhitespace, Bool.or_eq_true, decide_eq_true_eq] at h
  rcases h with ((h | h) | h) | h <;> subst h <;> rfl

/-- The text without blanks at its start. -/
def trimStart (cs : List Char) : List Char := cs.dropWhile isBlank

/-- The text without blanks at either end. -/
def trim (cs : List Char) : List Char :=
  ((trimStart cs).reverse.dropWhile isBlank).reverse

/-- The maximal runs of characters for which `isBreak` fails. -/
def runs (isBreak : Char → Bool) : List Char → List (List Char)
  | [] => []
  | c :: cs =>
    if isBreak c then runs isBreak cs
    else
      match cs, runs isBreak cs with
      | d :: _, r :: rs => if isBreak d then [c] :: r :: rs else (c :: r) :: rs
      | _, rs => [c] :: rs

/-- The fields of a line. -/
def fields (cs : List Char) : List (List Char) := runs isBlank cs

/-- The lines of a text; a line feed at the very end does not open another one. -/
def lines : List Char → List (List Char)
  | [] => []
  | c :: cs =>
    if c = '\n' then [] :: lines cs
    else
      match lines cs with
      | [] => [[c]]
      | l :: ls => (c :: l) :: ls

end Influence.Text
