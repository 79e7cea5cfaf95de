import Influence.Text.Ranges

/-!
# Sets of characters

A set is written down as the ranges and operations that make it, so that membership is one
recursion.  Membership can change at `bounds` alone, which is why finitely many code points tell
whether a set has any character at all.
-/

namespace Influence

/-- A set of characters. -/
inductive CharSet where
  | ranges (ranges : List (Nat × Nat))
  | union (s t : CharSet)
  | inter (s t : CharSet)
  /-- All but the members. -/
  | complement (s : CharSet)
  /-- The members with their other case, for letters of ASCII. -/
  | anyCase (s : CharSet)
  deriving Repr, DecidableEq

namespace CharSet

/-- A letter of ASCII in the other case. -/
def otherCase (c : Char) : Char := if c.isUpper then c.toLower else c.toUpper

/-- The character is in the set. -/
def contains : CharSet → Char → Bool
  | ranges rs, c => Text.inRanges rs c
  | union s t, c => s.contains c || t.contains c
  | inter s t, c => s.contains c && t.contains c
  | complement s, c => !s.contains c
  | anyCase s, c => s.contains c || s.contains (otherCase c)

/-- No character. -/
def empty : CharSet := ranges []

/-- Every character. -/
def full : CharSet := empty.complement

/-- One character. -/
def one (c : Char) : CharSet := ranges [(c.toNat, c.toNat)]

/-- The characters from one to another. -/
def range (first last : Char) : CharSet := ranges [(first.toNat, last.toNat)]

/-- The members of one set that are not in the other. -/
def difference (s t : CharSet) : CharSet := s.inter t.complement

/-- The characters that are in one of two sets only. -/
def symmetricDifference (s t : CharSet) : CharSet := (s.difference t).union (t.difference s)

/-! ## Characters of ASCII by kind -/

/-- The digits. -/
def digit : CharSet := ranges [(0x30, 0x39)]

/-- The blanks. -/
def space : CharSet := ranges [(0x09, 0x0d), (0x20, 0x20)]

/-- The letters, the digits and the low line. -/
def word : CharSet := ranges [(0x30, 0x39), (0x41, 0x5a), (0x5f, 0x5f), (0x61, 0x7a)]

/-- The kinds by name. -/
def kinds : List (String × CharSet) := [
  ("alnum", ranges [(0x30, 0x39), (0x41, 0x5a), (0x61, 0x7a)]),
  ("alpha", ranges [(0x41, 0x5a), (0x61, 0x7a)]),
  ("ascii", ranges [(0x00, 0x7f)]),
  ("blank", ranges [(0x09, 0x09), (0x20, 0x20)]),
  ("cntrl", ranges [(0x00, 0x1f), (0x7f, 0x7f)]),
  ("digit", digit),
  ("graph", ranges [(0x21, 0x7e)]),
  ("lower", ranges [(0x61, 0x7a)]),
  ("print", ranges [(0x20, 0x7e)]),
  ("punct", ranges [(0x21, 0x2f), (0x3a, 0x40), (0x5b, 0x60), (0x7b, 0x7e)]),
  ("space", space),
  ("upper", ranges [(0x41, 0x5a)]),
  ("word", word),
  ("xdigit", ranges [(0x30, 0x39), (0x41, 0x46), (0x61, 0x66)])]

/-! ## Emptiness -/

/-- The code points at which membership may change. -/
def bounds : CharSet → List Nat
  | ranges rs => rs.flatMap fun (first, last) => [first, last + 1]
  | union s t | inter s t => s.bounds ++ t.bounds
  | complement s => s.bounds
  | anyCase s =>
    [0x41, 0x5b, 0x61, 0x7b] ++ s.bounds ++ s.bounds.map (· + 0x20) ++ s.bounds.map (· - 0x20)

/-- No character is in the set.  Behind the code points that are no characters membership may
change as well. -/
def isEmpty (s : CharSet) : Bool :=
  (0 :: 0xe000 :: s.bounds).all fun n => !s.contains (Char.ofNat n)

/-! ## Lemmas -/

@[simp] theorem contains_empty (c : Char) : empty.contains c = false := rfl

@[simp] theorem contains_full (c : Char) : full.contains c = true := rfl

/-- One character is the set of those equal to it. -/
theorem contains_one (c d : Char) : (one c).contains d = decide (d = c) := by
  have h : d = c ↔ d.toNat = c.toNat :=
    ⟨congrArg Char.toNat, fun h => Char.ext (UInt32.toNat_inj.1 h)⟩
  rw [Bool.eq_iff_iff, decide_eq_true_eq, h]
  simp only [one, contains, Text.inRanges, List.any_cons, List.any_nil, Bool.or_false,
    Bool.and_eq_true, decide_eq_true_eq]
  omega

theorem contains_difference (s t : CharSet) (c : Char) :
    (s.difference t).contains c = (s.contains c && !t.contains c) := rfl

theorem contains_symmetricDifference (s t : CharSet) (c : Char) :
    (s.symmetricDifference t).contains c = (s.contains c != t.contains c) := by
  simp only [symmetricDifference, contains, difference]
  cases s.contains c <;> cases t.contains c <;> rfl

/-- A set without characters is seen to be one. -/
theorem isEmpty_of_contains {s : CharSet} (h : ∀ c, s.contains c = false) : s.isEmpty = true :=
  List.all_eq_true.2 fun n _ => by simp [h]

end CharSet

end Influence
