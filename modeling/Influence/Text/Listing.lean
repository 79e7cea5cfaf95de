/-!
# Lists as text

Index lists are shown in brackets, with a comma and a space between entries, and long
lists are cut into pieces of one length.
-/

namespace Influence.Text

/-- Texts with a separator between neighbours. -/
def joined (separator : String) : List String → String
  | [] => ""
  | [t] => t
  | t :: ts => t ++ separator ++ joined separator ts

/-- A list of indices in brackets. -/
def indices (xs : List Nat) : String := "[" ++ joined ", " (xs.map Nat.repr) ++ "]"

/-- Consecutive pieces of a given positive length; the last one may be shorter. -/
def pieces {α : Type} (width : Nat) : List α → List (List α)
  | [] => []
  | x :: xs => (x :: xs.take (width - 1)) :: pieces width (xs.drop (width - 1))
termination_by xs => xs.length
decreasing_by
  simp only [List.length_drop, List.length_cons]
  omega

end Influence.Text
