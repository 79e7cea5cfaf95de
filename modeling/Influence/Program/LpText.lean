import Influence.Program.Basic

/-!
# Programs as LP text

The LP format of mathematical programming: a comment with the sizes, the objective, the
constraints by position (lazy ones in a section of their own), the bounds of continuous
variables, and the list of binary ones.  Long rows are broken after eight terms.  The
constant of the objective does not change the optimum and stands in a comment.
-/

namespace Influence.LpText

variable {α : Type} [Scalar α] [Numeral α]

/-- Terms, or names, on one line. -/
def perLine : Nat := 8

/-- A coefficient with its sign and variable; a magnitude of one is left out. -/
def termText (m : Program α) (v : Nat) (coefficient : α) : String :=
  let sign := if coefficient < 0 then "-" else "+"
  let magnitude := Scalar.abs coefficient
  let factor := if magnitude == 1 then "" else Numeral.write magnitude ++ " "
  " " ++ sign ++ " " ++ factor ++ m.exportName v

/-- A row of terms.  An empty row needs some variable, and takes the first. -/
def exprText (m : Program α) (e : LinearExpr α) : String :=
  if e.isEmpty then
    if m.vars.isEmpty then " 0" else " 0 " ++ m.exportName 0
  else
    String.join <| e.terms.zipIdx.map fun ((v, c), k) =>
      (if 0 < k ∧ k % perLine = 0 then "\n  " else "") ++ termText m v c

/-- One constraint under its label. -/
def constraintText (m : Program α) (mark : String) (c : Constraint α) (i : Nat) : String :=
  " " ++ mark ++ i.repr ++ ":" ++ exprText m c.expr ++ " " ++ c.sense.symbol ++ " " ++
    Numeral.write c.rhs ++ "\n"

/-- The constraints that are lazy, or those that are not, by position. -/
def sectionText (m : Program α) (mark : String) (isLazy : Bool) : String :=
  String.join <| (m.constraints.toList.zipIdx.filter fun (c, _) => c.isLazy == isLazy).map
    fun (c, i) => constraintText m mark c i

/-- The bounds of one continuous variable. -/
def boundText (name : String) (v : Variable α) : String :=
  match Scalar.isFinite v.lower, Scalar.isFinite v.upper with
  | false, false => " " ++ name ++ " free\n"
  | true, true =>
    " " ++ Numeral.write v.lower ++ " <= " ++ name ++ " <= " ++ Numeral.write v.upper ++ "\n"
  | true, false => " " ++ name ++ " >= " ++ Numeral.write v.lower ++ "\n"
  | false, true => " -inf <= " ++ name ++ " <= " ++ Numeral.write v.upper ++ "\n"

/-- The bounds of all continuous variables. -/
def boundsText (m : Program α) : String :=
  String.join <| m.vars.toList.zipIdx.map fun (v, i) =>
    if v.kind = .binary then "" else boundText (m.exportName i) v

/-- The binary variables, eight on a line. -/
def binariesText (m : Program α) : String :=
  let names := (List.range m.vars.size).filterMap fun i =>
    if m.isBinary i then some (m.exportName i) else none
  if names.isEmpty then ""
  else "Binaries\n" ++ String.join ((Text.pieces perLine names).map fun line =>
    " " ++ Text.joined " " line ++ "\n")

/-- The whole program. -/
def render (m : Program α) : String :=
  let constant := m.objective.constant
  let lazyRows := sectionText m "l" true
  "\\ " ++ m.vars.size.repr ++ " variables, " ++ m.constraints.size.repr ++
    " constraints\n" ++
  (if constant == 0 then ""
    else "\\ objective constant: " ++ Numeral.write constant ++ "\n") ++
  (match m.direction with
    | .maximize => "Maximize\n"
    | .minimize => "Minimize\n") ++
  " obj:" ++ exprText m m.objective ++ "\n" ++
  "Subject To\n" ++ sectionText m "c" false ++
  (if lazyRows = "" then "" else "Lazy Constraints\n" ++ lazyRows) ++
  "Bounds\n" ++ boundsText m ++ binariesText m ++ "End\n"

end Influence.LpText
