import Influence.Encoding.PathVariables

/-!
# Objectives

What a program optimizes over the path variables: the expected utility, or the expected
utility of the worst `α` of probability mass.  Both are built from shifted and scaled
utilities; `value` gives the result in the diagram's own units.

The tail objective needs variables of its own.  With `η` for the quantile, two binary
variables per path say whether its utility is below `η` (`λ`) and whether it is at most
`η` (`λ̄`); `ρ` carries the mass of paths below, and `ρ̄` the mass that counts towards the
tail, which is `α` in total.
-/

namespace Influence

/-- The expected utility over the path variables. -/
structure ExpectedUtility (α : Type) where
  expr : LinearExpr α
  /-- The scaled probability mass of the path variables. -/
  mass : LinearExpr α
  shift : α
  scale : α
  deriving Repr, DecidableEq

/-- The expected utility of the worst part of the mass. -/
structure TailUtility (α : Type) where
  expr : LinearExpr α
  alpha : α
  shift : α
  scale : α
  /-- The quantile variable; absent where every path has the same utility. -/
  eta : Option Nat
  deriving Repr, DecidableEq

namespace ExpectedUtility

variable {α : Type} [Scalar α]

/-- The expected utility over given path variables. -/
def build (d : Diagram α) (x : PathVariables α) :
    Except (DiagramError α) (ExpectedUtility α) := do
  let terms ← x.vars.mapM fun (p, v) => do
    let probability ← d.probabilityOf p
    let utility ← d.shiftedPathUtility p
    pure (v, probability * utility * x.scale)
  pure ⟨LinearExpr.ofTerms terms, ← x.mass d, d.shift, x.scale⟩

/-- The expected utility of a solution, without the shift and the scale. -/
def value (e : ExpectedUtility α) (s : Solution α) : α :=
  (e.expr.evaluate s.values - e.shift * e.mass.evaluate s.values) / e.scale

end ExpectedUtility

namespace TailUtility

variable {α : Type} [Scalar α]

/-- A path variable with its path's probability and shifted utility. -/
structure Outcome (α : Type) where
  var : Nat
  probability : α
  utility : α

/-- The outcomes of the path variables. -/
def outcomes (d : Diagram α) (x : PathVariables α) :
    Except (DiagramError α) (List (Outcome α)) :=
  x.vars.mapM fun (p, v) => do
    pure ⟨v, ← d.probabilityOf p, ← d.shiftedPathUtility p⟩

/-- The extremes of the utilities and the least gap between different ones, infinite where
there is only one. -/
structure Spread (α : Type) where
  low : α
  high : α
  gap : α

/-- Neighbours that compare equal are kept once. -/
def dedup : List α → List α
  | [] => []
  | u :: us => go u us
where
  go (last : α) : List α → List α
    | [] => [last]
    | u :: us => if u == last then go last us else last :: go u us

/-- The differences between neighbours. -/
def gaps : List α → List α
  | u :: v :: us => (v - u) :: gaps (v :: us)
  | _ => []

/-- The spread of a list of utilities; `none` for the empty list. -/
def spread? (utilities : List α) : Option (Spread α) :=
  let sorted := dedup (utilities.mergeSort Scalar.totalLe)
  match sorted.head?, sorted.getLast? with
  | some low, some high =>
    some ⟨low, high, (gaps sorted).foldl Scalar.smaller Scalar.infinity⟩
  | _, _ => none

/-- Adds the variables and constraints of the `k`-th outcome, and gives the variable of
the mass that counts. -/
def addOutcome (x : PathVariables α) (bigM epsilon : α) (eta : Nat) (k : Nat)
    (o : Outcome α) : ProgramM α Nat := do
  let lambda ← Program.addBinary (some ("lambda_" ++ k.repr))
  let lambdaBar ← Program.addBinary (some ("lambda_bar_" ++ k.repr))
  let rho ← Program.addContinuous 0 Scalar.infinity (some ("rho_" ++ k.repr))
  let rhoBar ← Program.addContinuous 0 Scalar.infinity (some ("rho_bar_" ++ k.repr))
  let mass := o.probability * x.scale
  let add (expr : LinearExpr α) (sense : Sense) (rhs : α) : ProgramM α Unit := do
    let _ ← Program.constrain expr sense rhs false
  let above (v : Nat) (c : α) : LinearExpr α := LinearExpr.var eta - LinearExpr.term v c
  add (above lambda bigM) .le o.utility
  add (above lambda (bigM + epsilon)) .ge (o.utility - bigM)
  add (above lambdaBar (bigM + epsilon)) .le (o.utility - epsilon)
  add (above lambdaBar bigM) .ge (o.utility - bigM)
  add (LinearExpr.var rho - LinearExpr.var rhoBar) .le 0
  add (LinearExpr.var rhoBar - LinearExpr.term o.var mass) .le 0
  add (LinearExpr.term o.var mass + LinearExpr.term lambda x.scale - LinearExpr.var rho) .le
    x.scale
  add (LinearExpr.var rho - LinearExpr.term lambda x.scale) .le 0
  add (LinearExpr.var rhoBar - LinearExpr.term lambdaBar x.scale) .le 0
  pure rhoBar

/-- Adds the tail objective over outcomes of a given spread. -/
def buildOver (d : Diagram α) (x : PathVariables α) (alpha : α) (outcomes : List (Outcome α))
    (s : Spread α) : ProgramM α (TailUtility α) := do
  if !Scalar.isFinite s.gap then
    pure ⟨LinearExpr.const (s.low * alpha * x.scale), alpha, d.shift, x.scale, none⟩
  else
    let eta ← Program.addContinuous (-Scalar.infinity) Scalar.infinity (some "eta")
    let tail ← outcomes.zipIdx.mapM fun (o, k) =>
      addOutcome x (s.high - s.low) (s.gap / 2.0) eta k o
    let _ ← Program.constrain (LinearExpr.sum (tail.map LinearExpr.var)) .eq
      (alpha * x.scale) false
    let terms := (tail.zip outcomes).map fun (v, o) => (v, o.utility)
    pure ⟨LinearExpr.ofTerms terms, alpha, d.shift, x.scale, some eta⟩

/-- Adds the tail objective of a level above zero and at most one. -/
def build (d : Diagram α) (x : PathVariables α) (alpha : α) : ProgramM α (TailUtility α) := do
  if !(decide (0 < alpha) && decide (alpha ≤ 1)) then throw (.invalidAlpha alpha .positive)
  let outcomes ← (outcomes d x : Except (DiagramError α) _)
  match spread? (outcomes.map (·.utility)) with
  | none => throw .emptyDistribution
  | some s => buildOver d x alpha outcomes s

/-- The tail expectation of a solution, without the shift and the scale. -/
def value (t : TailUtility α) (s : Solution α) : α :=
  t.expr.evaluate s.values / (t.alpha * t.scale) - t.shift

end TailUtility

/-- The objective of a compiled program. -/
inductive Objective (α : Type) where
  | expected (e : ExpectedUtility α)
  | tail (t : TailUtility α)

namespace Objective

variable {α : Type} [Scalar α]

/-- The name of an objective in files and reports. -/
def name : Objective α → String
  | expected _ => "expected_value"
  | tail _ => "conditional_value_at_risk"

/-- What is optimized. -/
def expr : Objective α → LinearExpr α
  | expected e => e.expr
  | tail t => t.expr

/-- The level of a tail objective. -/
def alpha? : Objective α → Option α
  | expected _ => none
  | tail t => some t.alpha

/-- The result of a solution in the diagram's own units. -/
def value (o : Objective α) (s : Solution α) : α :=
  match o with
  | expected e => e.value s
  | tail t => t.value s

end Objective

end Influence
