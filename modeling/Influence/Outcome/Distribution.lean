import Influence.Diagram.Evaluation
import Influence.Number.Mass
import Influence.Number.Word
import Influence.Strategy.Compatible

/-!
# Utility distributions

The distribution of the path utility under a strategy: utilities ascending, each once,
with positive probabilities.  Utilities that compare equal are merged, outcomes without
probability are dropped, and the shift of the diagram plays no part.
-/

namespace Influence

/-- A discrete distribution of utilities, as `(utility, probability)` pairs. -/
structure Distribution (α : Type) where
  points : List (α × α)
  deriving Repr, DecidableEq

namespace Distribution

section Points

variable {υ π : Type} [Scalar υ] [Scalar π]

/-- Neighbours of equal utility put together, the probabilities summed. -/
def merge : List (υ × π) → List (υ × π)
  | [] => []
  | (u, p) :: rest => go u (Mass.empty.add p) rest
where
  go (u : υ) (m : Mass π) : List (υ × π) → List (υ × π)
    | [] => [(u, m.value)]
    | (v, p) :: rest =>
      if u == v then go u (m.add p) rest else (u, m.value) :: go v (Mass.empty.add p) rest

/-- Weighted utilities in order, those without probability left out and those of equal utility
put together. -/
def collect (points : List (υ × π)) : List (υ × π) :=
  let kept := points.filter fun (_, p) => decide (0 < p)
  merge (kept.mergeSort fun a b => Scalar.totalLe a.1 b.1)

end Points

variable {α : Type} [Scalar α]

/-- The distribution of weighted utilities given in any order. -/
def ofPoints (points : List (α × α)) : Distribution α :=
  ⟨collect points⟩

/-- The distribution under a strategy. -/
def ofStrategy (d : Diagram α) (s : Strategy) : Except (DiagramError α) (Distribution α) := do
  if !d.isGenerated then .error .notGenerated
  let points ← s.collect d .empty fun p => do
    let probability ← d.probabilityOf p
    if 0 < probability then pure (some (← d.rawPathUtility p, probability)) else pure none
  pure (ofPoints points)

/-- The power of ten that a number of decimals stands for.  The number is a 32-bit word and
counts as negative from `2 ^ 31` on. -/
def decimalFactor (decimals : Nat) : α :=
  let n := decimals % Word.count32
  Scalar.power (Scalar.ofNat 10) (if 2 * n < Word.count32 then n else n - Word.count32)

/-- Utilities rounded to a number of decimals, those that become equal merged. -/
def withPrecision (x : Distribution α) (decimals : Nat) : Distribution α :=
  let factor : α := decimalFactor decimals
  ofPoints (x.points.map fun (u, p) => (Scalar.round (u * factor) / factor, p))

/-- The utilities, ascending. -/
def utilities (x : Distribution α) : List α := x.points.map (·.1)

end Distribution

end Influence
