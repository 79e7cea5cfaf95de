/-!
# Ranges of characters

Sets of characters as ascending ranges of code points, both ends included.
-/

namespace Influence.Text

/-- The character lies in one of the ranges. -/
def inRanges (ranges : List (Nat × Nat)) (c : Char) : Bool :=
  ranges.any fun (first, last) => first ≤ c.toNat && c.toNat ≤ last

end Influence.Text
