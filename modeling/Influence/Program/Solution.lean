import Influence.Program.Basic
import Influence.Text.Blank

/-!
# Solutions

An assignment of a program's variables with its objective, and the text form in which
other solvers hand theirs over: one name and one value per line.  Blank lines and lines
that start with `#` are skipped, variables that no line names are zero, and of two lines
for one variable the later counts.
-/

namespace Influence

/-- An assignment of all variables, with the objective it attains. -/
structure Solution (α : Type) where
  values : Array α
  objective : α
  deriving Repr, DecidableEq

namespace Solution

variable {α : Type} [Scalar α]

/-- An assignment of the right length with its objective. -/
def ofValues (m : Program α) (values : Array α) : Except (ProgramError α) (Solution α) :=
  if values.size = m.vars.size then .ok ⟨values, m.objective.evaluate values⟩
  else .error (.solutionSize m.vars.size values.size)

/-- The value of a variable. -/
def value (s : Solution α) (v : Nat) : α := s.values.getD v 0

/-! ## Solution files -/

/-- The variable that `v` and a number means. -/
def numbered? (m : Program α) : List Char → Option Nat
  | 'v' :: cs => (Numeral.natural? cs).filter (· < m.vars.size)
  | _ => none

/-- The variable that a name means: one that carries it, else one by number. -/
def resolve? (m : Program α) (name : List Char) : Option Nat :=
  (m.find? (String.ofList name)).or (numbered? m name)

/-- A line that says nothing. -/
def isSkipped (line : List Char) : Bool := line.isEmpty || line.head? == some '#'

/-- The variable and value that a trimmed line assigns; the line is counted from one. -/
def assignment [Numeral α] (m : Program α) (number : Nat) (line : List Char) :
    Except (ProgramError α) (Nat × α) :=
  match Text.fields line with
  | [name, value] =>
    match Numeral.read? value with
    | none => .error (.solutionParse number (.value (String.ofList name)))
    | some x =>
      match resolve? m name with
      | some v => .ok (v, x)
      | none => .error (.unknownVariable (String.ofList name))
  | _ => .error (.solutionParse number (.fields (String.ofList line)))

/-- The assignments of a solution file, in order. -/
def assignments [Numeral α] (m : Program α) (text : String) :
    Except (ProgramError α) (List (Nat × α)) :=
  let numbered := ((Text.lines text.toList).map Text.trim).zipIdx 1
  (numbered.filter fun (line, _) => !isSkipped line).mapM fun (line, number) =>
    assignment m number line

/-- Reads a solution file. -/
def ofText [Numeral α] (m : Program α) (text : String) :
    Except (ProgramError α) (Solution α) := do
  let pairs ← assignments m text
  let zeros := Array.replicate m.vars.size (0 : α)
  ofValues m (pairs.foldl (fun values (v, x) => values.setIfInBounds v x) zeros)

/-- Writes a solution file. -/
def text [Numeral α] (m : Program α) (s : Solution α) : String :=
  "# Objective value = " ++ Numeral.write s.objective ++ "\n" ++
    String.join (s.values.toList.zipIdx.map fun (x, v) =>
      m.exportName v ++ " " ++ Numeral.write x ++ "\n")

end Solution

end Influence
