import Influence.Number.Moments
import Influence.Outcome.Distribution
import Influence.Program.Error

/-!
# Risk of a distribution

Utilities are gains, so risk sits in the lower tail.  The value at risk of a level is the
least utility at which the cumulative probability reaches the level; the conditional value
at risk is the mean of the worst part of the mass, of which the last utility gives only
what is needed to reach the level.  At level zero both are the least utility.
-/

namespace Influence

/-- Moments and range of a distribution. -/
structure UtilityStatistics (α : Type) where
  mean : α
  stdDev : α
  variance : α
  skewness : α
  excessKurtosis : α
  min : α
  max : α
  deriving Repr, DecidableEq

/-- Both risk measures at one level. -/
structure RiskMeasure (α : Type) where
  alpha : α
  valueAtRisk : α
  conditionalValueAtRisk : α
  deriving Repr, DecidableEq

namespace Distribution

variable {α : Type} [Scalar α]

/-- How far cumulative probability may stay below a level and still reach it. -/
def levelSlack : α := 1e-12

/-- Levels lie between zero and one. -/
def checkLevel (alpha : α) : Except (ProgramError α) Unit :=
  if 0 ≤ alpha ∧ alpha ≤ 1 then .ok () else .error (.invalidAlpha alpha .closed)

/-- The first utility at which the cumulative probability reaches a level. -/
def quantile? (alpha : α) (below : Mass α) : List (α × α) → Option α
  | [] => none
  | (u, p) :: rest =>
    let mass := below.add p
    if alpha ≤ mass.value + levelSlack then some u else quantile? alpha mass rest

/-- The least utility whose cumulative probability reaches the level, else the greatest. -/
def valueAtRisk (x : Distribution α) (alpha : α) : Except (ProgramError α) α := do
  checkLevel alpha
  match x.points.getLast? with
  | none => .error .emptyDistribution
  | some (last, _) => pure ((quantile? alpha .empty x.points).getD last)

/-- The mean utility of the worst part of the mass. -/
def conditionalValueAtRisk (x : Distribution α) (alpha : α) : Except (ProgramError α) α := do
  let var ← x.valueAtRisk alpha
  if alpha == 0 then pure var
  else
    let worse := x.points.takeWhile fun (u, _) => decide (u < var)
    let tail := Mass.total (worse.map fun (u, p) => u * p)
    let mass := Mass.total (worse.map (·.2))
    let remainder := Scalar.larger (alpha - mass) 0
    pure ((tail + var * remainder) / alpha)

/-- Both measures at each level. -/
def riskMeasures (x : Distribution α) (alphas : List α) :
    Except (ProgramError α) (List (RiskMeasure α)) :=
  alphas.mapM fun alpha => do
    pure ⟨alpha, ← x.valueAtRisk alpha, ← x.conditionalValueAtRisk alpha⟩

variable [Root α]

/-- The moments of the utilities. -/
def moments (x : Distribution α) : Except (ProgramError α) (Moments α) :=
  match Moments.ofPoints x.points with
  | some m => .ok m
  | none => .error .emptyDistribution

/-- The moments with the least and the greatest utility. -/
def statistics (x : Distribution α) : Except (ProgramError α) (UtilityStatistics α) := do
  let m ← x.moments
  match x.utilities.head?, x.utilities.getLast? with
  | some min, some max =>
    pure ⟨m.mean, m.stdDev, m.variance, m.skewness, m.excessKurtosis, min, max⟩
  | _, _ => .error .emptyDistribution

end Distribution

end Influence
