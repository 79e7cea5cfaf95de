import Mathlib.Algebra.BigOperators.Group.List.Basic
import Mathlib.Analysis.Real.Sqrt
import Mathlib.Tactic.Linarith
import Mathlib.Tactic.NormNum
import Mathlib.Tactic.Ring
import Influence.Number.Exact
import Influence.Number.Mass

/-!
# Real scalars

The reals are a field of exact scalars, and one with square roots, so what is written over scalars
can be read in real arithmetic.  On finite values the operations are those of the reals, and sums of
mass shed nothing (`total_map_finite`).
-/

namespace Influence

/-- The real numbers with infinities and a value that is not a number. -/
abbrev RealScalar := Extended ℝ

namespace RealScalar

open Extended (finite)

/-! ## The field -/

-- The comparisons of a field come with it, so elsewhere the reals keep their own.
noncomputable scoped instance : ExactField ℝ where
  decEq := inferInstance
  decLt := inferInstance
  decLe := inferInstance
  floor := Int.floor
  ofInt n := n

noncomputable scoped instance : Root ℝ where
  sqrt := Real.sqrt

/-! ## Operations on finite values -/

theorem zero_eq_finite : (0 : RealScalar) = finite 0 := rfl

@[simp] theorem finite_add (x y : ℝ) : (finite x + finite y : RealScalar) = finite (x + y) := rfl

@[simp] theorem finite_mul (x y : ℝ) : (finite x * finite y : RealScalar) = finite (x * y) := rfl

@[simp] theorem finite_sub (x y : ℝ) : (finite x - finite y : RealScalar) = finite (x - y) := by
  change finite (x + -y) = finite (x - y)
  rw [sub_eq_add_neg]

theorem finite_div (x : ℝ) {y : ℝ} (hy : y ≠ 0) :
    (finite x / finite y : RealScalar) = finite (x / y) := if_neg hy

@[simp] theorem finite_le (x y : ℝ) : (finite x : RealScalar) ≤ finite y ↔ x ≤ y := Iff.rfl

@[simp] theorem finite_lt (x y : ℝ) : (finite x : RealScalar) < finite y ↔ x < y := Iff.rfl

@[simp] theorem isFinite_finite (x : ℝ) : Scalar.isFinite (finite x : RealScalar) = true := rfl

@[simp] theorem larger_finite (x y : ℝ) :
    Scalar.larger (finite x : RealScalar) (finite y) = finite (max x y) := by
  change (if (finite y : RealScalar) < finite x then finite x else finite y) = _
  simp only [finite_lt]
  split
  case isTrue h => rw [max_eq_left h.le]
  case isFalse h => rw [max_eq_right (not_lt.mp h)]

theorem sqrt_finite {x : ℝ} (hx : 0 ≤ x) :
    Root.sqrt (finite x : RealScalar) = finite (Real.sqrt x) := if_neg (not_lt.mpr hx)

theorem three_eq_finite : (3.0 : RealScalar) = finite 3 := by
  change finite (3.0 : ℝ) = finite 3
  norm_num

/-! ## Sums -/

/-- Exact additions shed nothing. -/
theorem mass_add_finite (a x : ℝ) :
    (Mass.mk (finite a) (finite 0) : Mass RealScalar).add (finite x) =
      ⟨finite (a + x), finite 0⟩ := by
  simp only [Mass.add, finite_add, finite_sub]
  split
  · rw [show (0 : ℝ) + (a - (a + x) + x) = 0 by ring]
  · rw [show (0 : ℝ) + (x - (a + x) + a) = 0 by ring]

@[simp] theorem total_map_finite (xs : List ℝ) :
    Mass.total (xs.map finite : List RealScalar) = finite xs.sum := by
  have added (a : ℝ) : (Mass.mk (finite a) (finite 0) : Mass RealScalar).addAll (xs.map finite) =
      ⟨finite (a + xs.sum), finite 0⟩ := by
    induction xs generalizing a with
    | nil => simp [Mass.addAll]
    | cons x xs ih =>
      rw [List.sum_cons, ← add_assoc, ← ih, ← mass_add_finite]
      rfl
  change ((Mass.mk (finite 0) (finite 0) : Mass RealScalar).addAll (xs.map finite)).value = _
  rw [added, Mass.value, finite_add, zero_add, add_zero]

end RealScalar

end Influence
