import Influence.Number.Mass

/-!
# Moments of weighted values

The mean, the central moments up to the fourth, and the standardized third and
fourth moments of finitely many values with weights.  Weights need not sum to one:
every moment is divided by their total.
-/

namespace Influence

variable {α : Type} [Scalar α] [Root α]

/-- The moments of a weighted list.  A list whose values all agree has no spread, and
then skewness and kurtosis are zero. -/
structure Moments (α : Type) where
  totalWeight : α
  mean : α
  variance : α
  stdDev : α
  skewness : α
  excessKurtosis : α

namespace Moments

/-- The weighted mean of a function of the values. -/
def meanOf (totalWeight : α) (points : List (α × α)) (term : α → α → α) : α :=
  Mass.total (points.map fun (v, w) => term v w) / totalWeight

/-- The moments of `(value, weight)` pairs: `none` when a value or weight is not
finite, a weight is negative, or the weights do not sum to something positive. -/
def ofPoints (points : List (α × α)) : Option (Moments α) :=
  if points.any fun (v, w) => !Scalar.isFinite w || decide (w < 0) || !Scalar.isFinite v then
    none
  else
    let totalWeight := Mass.total (points.map (·.2))
    if totalWeight ≤ 0 then none
    else
      let mean := meanOf totalWeight points fun v w => v * w
      let central (term : α → α → α → α) : α :=
        meanOf totalWeight points fun v w =>
          let d := v - mean
          term w d (d * d)
      let variance := Scalar.larger (central fun w _ d2 => w * d2) 0
      let stdDev := Root.sqrt variance
      if 0 < variance then
        some {
          totalWeight, mean, variance, stdDev
          skewness := central (fun w d d2 => w * d2 * d) / (variance * stdDev)
          excessKurtosis :=
            central (fun w _ d2 => w * d2 * d2) / (variance * variance) - 3.0 }
      else
        some { totalWeight, mean, variance, stdDev, skewness := 0, excessKurtosis := 0 }

end Moments

end Influence
