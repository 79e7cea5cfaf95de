import Influence.Number.Scalar

/-!
# Linear expressions

Terms over numbered variables and a constant.  Terms keep the order in which they were
written and may repeat a variable; `compact` merges repetitions where the variable first
appears and drops terms whose coefficient is zero.
-/

namespace Influence

/-- `Σ coefficient * variable + constant`. -/
structure LinearExpr (α : Type) where
  terms : List (Nat × α)
  constant : α
  deriving Repr, DecidableEq

namespace LinearExpr

variable {α : Type} [Scalar α]

/-- The expression without terms that is always zero. -/
def zero : LinearExpr α := ⟨[], 0⟩

/-- A constant. -/
def const (x : α) : LinearExpr α := ⟨[], x⟩

/-- One term. -/
def term (v : Nat) (coefficient : α) : LinearExpr α := ⟨[(v, coefficient)], 0⟩

/-- A variable by itself. -/
def var (v : Nat) : LinearExpr α := term v 1

/-- Terms without a constant. -/
def ofTerms (terms : List (Nat × α)) : LinearExpr α := ⟨terms, 0⟩

/-- No terms; the constant does not matter. -/
def isEmpty (e : LinearExpr α) : Bool := e.terms.isEmpty

/-- One more term at the end. -/
def addTerm (e : LinearExpr α) (v : Nat) (coefficient : α) : LinearExpr α :=
  { e with terms := e.terms ++ [(v, coefficient)] }

/-- A larger constant. -/
def addConstant (e : LinearExpr α) (x : α) : LinearExpr α :=
  { e with constant := e.constant + x }

/-- Every coefficient and the constant times a factor. -/
def scale (e : LinearExpr α) (factor : α) : LinearExpr α :=
  ⟨e.terms.map fun (v, c) => (v, c * factor), e.constant * factor⟩

instance : Add (LinearExpr α) := ⟨fun a b => ⟨a.terms ++ b.terms, a.constant + b.constant⟩⟩
instance : Neg (LinearExpr α) := ⟨fun a => a.scale (-1)⟩
instance : Sub (LinearExpr α) := ⟨fun a b => a + -b⟩

/-- The sum of a list of expressions, in order. -/
def sum (es : List (LinearExpr α)) : LinearExpr α :=
  ⟨es.flatMap (·.terms), es.foldl (fun c e => c + e.constant) 0⟩

/-- Adds a term to those already merged: to the one with the same variable, or at the
end. -/
def mergeTerm (v : Nat) (c : α) : List (Nat × α) → List (Nat × α)
  | [] => [(v, c)]
  | (w, d) :: ts => if w = v then (w, d + c) :: ts else (w, d) :: mergeTerm v c ts

/-- Terms with each variable once, in the order of first appearance. -/
def mergeTerms (ts : List (Nat × α)) : List (Nat × α) :=
  ts.foldl (fun merged (v, c) => mergeTerm v c merged) []

/-- Repeated variables merged and zero coefficients dropped. -/
def compact (e : LinearExpr α) : LinearExpr α :=
  { e with terms := (mergeTerms e.terms).filter fun (_, c) => !(c == 0) }

/-- The value at an assignment; variables past its end are zero. -/
def evaluate (e : LinearExpr α) (values : Array α) : α :=
  e.constant + Scalar.sum (e.terms.map fun (v, c) => c * values.getD v 0)

end LinearExpr

end Influence
