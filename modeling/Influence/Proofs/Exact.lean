import Mathlib.Algebra.BigOperators.Group.List.Basic
import Mathlib.Algebra.Order.Field.Rat
import Mathlib.Data.Rat.Cast.Defs
import Mathlib.Data.Rat.Floor
import Mathlib.Tactic.Linarith
import Mathlib.Tactic.Ring
import Influence.Number.Exact
import Influence.Number.Mass

/-!
# Arithmetic of finite exact scalars

On finite values the operations of `Exact` are those of the rationals, so a computation
that starts from finite values stays finite as long as it divides by nothing that is zero.
`Extended.rational` reads a value back as a rational; statements about sums, expressions
and tables are made about the readings.

Exact sums shed nothing: `Mass.total` is the plain sum (`total_map_finite`).  Rounding takes the
whole part of what lies half above (`nearest_of_nonneg`) and is odd (`nearest_neg`); repeated
squaring gives the powers of the field (`power_finite`).
-/

namespace Influence

namespace Extended

/-! ## Operations on finite values -/

theorem zero_eq_finite : (0 : Exact) = finite 0 := rfl

theorem one_eq_finite : (1 : Exact) = finite 1 := rfl

@[simp] theorem finite_add (x y : ℚ) : (finite x + finite y : Exact) = finite (x + y) := rfl

@[simp] theorem finite_mul (x y : ℚ) : (finite x * finite y : Exact) = finite (x * y) := rfl

@[simp] theorem finite_neg (x : ℚ) : (-finite x : Exact) = finite (-x) := rfl

@[simp] theorem finite_sub (x y : ℚ) : (finite x - finite y : Exact) = finite (x - y) := by
  change finite (x + -y) = finite (x - y)
  rw [sub_eq_add_neg]

theorem finite_div (x : ℚ) {y : ℚ} (hy : y ≠ 0) :
    (finite x / finite y : Exact) = finite (x / y) := if_neg hy

@[simp] theorem finite_le (x y : ℚ) : (finite x : Exact) ≤ finite y ↔ x ≤ y := Iff.rfl

@[simp] theorem finite_lt (x y : ℚ) : (finite x : Exact) < finite y ↔ x < y := Iff.rfl

@[simp] theorem finite_beq (x y : ℚ) : ((finite x : Exact) == finite y) = decide (x = y) := by
  change (decide (x ≤ y) && decide (y ≤ x)) = decide (x = y)
  rw [← Bool.decide_and, decide_eq_decide]
  exact le_antisymm_iff.symm

theorem one_beq_one : ((1 : Exact) == 1) = true := (finite_beq 1 1).trans (decide_eq_true rfl)

theorem one_beq_zero : ((1 : Exact) == 0) = false :=
  (finite_beq 1 0).trans (decide_eq_false one_ne_zero)

@[simp] theorem isFinite_finite (x : ℚ) : Scalar.isFinite (finite x : Exact) = true := rfl

@[simp] theorem isNaN_finite (x : ℚ) : Scalar.isNaN (finite x : Exact) = false := rfl

@[simp] theorem abs_finite (x : ℚ) : Scalar.abs (finite x : Exact) = finite |x| := by
  change finite (if x < 0 then -x else x) = finite |x|
  split
  case isTrue h => rw [abs_of_neg h]
  case isFalse h => rw [abs_of_nonneg (not_lt.mp h)]

theorem ofNat_eq_finite (n : ℕ) : (Scalar.ofNat n : Exact) = finite (n : ℚ) := by
  change finite (Rat.ofInt n) = finite (n : ℚ)
  rw [Rat.ofInt_eq_cast, Int.cast_natCast]

@[simp] theorem larger_finite (x y : ℚ) :
    Scalar.larger (finite x : Exact) (finite y) = finite (max x y) := by
  simp only [Scalar.larger, isNaN_finite, finite_lt, Bool.false_eq_true, if_false]
  split
  case isTrue h => rw [max_eq_left h.le]
  case isFalse h => rw [max_eq_right (not_lt.mp h)]

@[simp] theorem smaller_finite (x y : ℚ) :
    Scalar.smaller (finite x : Exact) (finite y) = finite (min x y) := by
  simp only [Scalar.smaller, isNaN_finite, finite_lt, Bool.false_eq_true, if_false]
  split
  case isTrue h => rw [min_eq_left h.le]
  case isFalse h => rw [min_eq_right (not_lt.mp h)]

/-! ## Rounding and powers -/

theorem nearest_of_nonneg {x : ℚ} (hx : 0 ≤ x) : nearest x = (⌊x + 1 / 2⌋ : ℤ) := by
  have half : (0.5 : ℚ) = 1 / 2 := by norm_num
  rw [nearest, if_neg (not_lt.mpr hx), half]
  exact Rat.ofInt_eq_cast _

theorem nearest_neg (x : ℚ) : nearest (-x) = -nearest x := by
  have opposite {y : ℚ} (hy : 0 < y) : nearest (-y) = -nearest y := by
    rw [nearest, if_pos (neg_neg_of_pos hy), neg_neg, nearest, if_neg hy.not_gt]
  rcases lt_trichotomy x 0 with negative | rfl | positive
  · rw [← neg_neg (nearest (-x)), ← opposite (neg_pos.mpr negative), neg_neg]
  · rw [neg_zero, nearest_of_nonneg le_rfl]
    norm_num
  · exact opposite positive

/-- A whole number rounds to itself. -/
theorem nearest_intCast (n : ℤ) : nearest (n : ℚ) = n := by
  have whole (m : ℤ) (hm : 0 ≤ m) : nearest (m : ℚ) = m := by
    rw [nearest_of_nonneg (by exact_mod_cast hm)]
    norm_num
  rcases le_total 0 n with nonneg | nonpos
  · exact whole n nonneg
  · have := whole (-n) (by omega)
    rwa [Int.cast_neg, nearest_neg, neg_inj] at this

/-- A power by repeated squaring. -/
theorem powerFrom_finite (acc base : ℚ) (n : ℕ) :
    Scalar.powerFrom (finite acc : Exact) (finite base) n = finite (acc * base ^ n) := by
  induction n using Nat.strong_induction_on generalizing acc base with
  | _ n ih =>
    have odd : (if n % 2 = 1 then finite acc * finite base else finite acc : Exact) =
        finite (acc * base ^ (n % 2)) := by
      rcases Nat.mod_two_eq_zero_or_one n with none | one
      · rw [if_neg (by omega), none, pow_zero, mul_one]
      · rw [if_pos one, one, pow_one, finite_mul]
    have digits : base ^ (n % 2) * (base * base) ^ (n / 2) = base ^ n := by
      rw [← pow_two, ← pow_mul, ← pow_add, Nat.mod_add_div]
    rw [Scalar.powerFrom, odd]
    by_cases zero : n = 0
    · rw [if_pos zero, zero, pow_zero, mul_one]
    · rw [if_neg zero, ← digits, ← mul_assoc]
      by_cases last : n / 2 = 0
      · rw [if_pos last, last, pow_zero, mul_one]
      · rw [if_neg last, finite_mul, ih (n / 2) (by omega)]

theorem power_finite {base : ℚ} (nonzero : base ≠ 0) (n : ℤ) :
    Scalar.power (finite base : Exact) n = finite (base ^ n) := by
  cases n with
  | ofNat n =>
    rw [Scalar.power, one_eq_finite, powerFrom_finite, one_mul, Int.ofNat_eq_natCast, zpow_natCast]
  | negSucc n =>
    rw [Scalar.power, one_eq_finite, powerFrom_finite, one_mul, finite_div _ (pow_ne_zero _ nonzero),
      zpow_negSucc, one_div]

/-! ## Reading a value back -/

/-- The rational that a finite value is, and zero for the others. -/
def rational : Exact → ℚ
  | finite x => x
  | _ => 0

@[simp] theorem rational_finite (x : ℚ) : rational (finite x) = x := rfl

theorem finite_rational {x : Exact} (hx : Scalar.isFinite x = true) :
    finite (rational x) = x := by
  cases x with
  | finite x => rfl
  | notANumber => cases hx
  | bottom => cases hx
  | top => cases hx

/-- The reading of what a computation gives, and zero where it fails. -/
def outcome {ε : Type} : Except ε Exact → ℚ
  | .ok x => rational x
  | .error _ => 0

@[simp] theorem outcome_ok {ε : Type} (x : Exact) :
    outcome (.ok x : Except ε Exact) = rational x := rfl

/-- A value between two finite ones is finite. -/
theorem isFinite_of_between {x : Exact} {a b : ℚ} (low : finite a ≤ x) (high : x ≤ finite b) :
    Scalar.isFinite x = true := by
  cases x with
  | finite x => rfl
  | notANumber => exact low.elim
  | bottom => exact low.elim
  | top => exact high.elim

/-- A list of finite values is the image of the list of its readings. -/
theorem map_finite_map_rational {xs : List Exact}
    (hxs : ∀ x ∈ xs, Scalar.isFinite x = true) :
    (xs.map rational).map finite = xs := by
  rw [List.map_map]
  conv_rhs => rw [← List.map_id xs]
  exact List.map_congr_left fun x hx => finite_rational (hxs x hx)

/-! ## Sums and products -/

private theorem foldl_add_map_finite (a : ℚ) (xs : List ℚ) :
    (xs.map finite).foldl (· + ·) (finite a : Exact) = finite (a + xs.sum) := by
  induction xs generalizing a with
  | nil => simp
  | cons x xs ih =>
    rw [List.map_cons, List.foldl_cons, finite_add, ih, List.sum_cons, add_assoc]

private theorem foldl_mul_map_finite (a : ℚ) (xs : List ℚ) :
    (xs.map finite).foldl (· * ·) (finite a : Exact) = finite (a * xs.prod) := by
  induction xs generalizing a with
  | nil => simp
  | cons x xs ih =>
    rw [List.map_cons, List.foldl_cons, finite_mul, ih, List.prod_cons, mul_assoc]

@[simp] theorem sum_map_finite (xs : List ℚ) :
    Scalar.sum (xs.map finite : List Exact) = finite xs.sum := by
  have h := foldl_add_map_finite (-0) xs
  rwa [neg_zero, zero_add] at h

@[simp] theorem product_map_finite (xs : List ℚ) :
    Scalar.product (xs.map finite : List Exact) = finite xs.prod := by
  have h := foldl_mul_map_finite 1 xs
  rwa [one_mul] at h

theorem sum_eq_finite {xs : List Exact} (hxs : ∀ x ∈ xs, Scalar.isFinite x = true) :
    Scalar.sum xs = finite (xs.map rational).sum := by
  rw [← sum_map_finite, map_finite_map_rational hxs]

/-- Exact additions shed nothing. -/
theorem sum_perm {xs ys : List Exact} (perm : xs.Perm ys)
    (hxs : ∀ x ∈ xs, Scalar.isFinite x = true) : Scalar.sum ys = Scalar.sum xs := by
  rw [sum_eq_finite hxs, sum_eq_finite fun y hy => hxs y (perm.mem_iff.mpr hy),
    (perm.map rational).sum_eq]

theorem product_perm {xs ys : List Exact} (perm : xs.Perm ys)
    (hxs : ∀ x ∈ xs, Scalar.isFinite x = true) : Scalar.product ys = Scalar.product xs := by
  rw [← map_finite_map_rational hxs,
    ← map_finite_map_rational fun y hy => hxs y (perm.mem_iff.mpr hy), product_map_finite,
    product_map_finite, (perm.map rational).prod_eq]

theorem mass_add_finite (a x : ℚ) :
    (Mass.mk (finite a) (finite 0) : Mass Exact).add (finite x) =
      ⟨finite (a + x), finite 0⟩ := by
  simp only [Mass.add, finite_add, finite_sub]
  split
  · rw [show (0 : ℚ) + (a - (a + x) + x) = 0 by ring]
  · rw [show (0 : ℚ) + (x - (a + x) + a) = 0 by ring]

private theorem mass_addAll_map_finite (a : ℚ) (xs : List ℚ) :
    (Mass.mk (finite a) (finite 0) : Mass Exact).addAll (xs.map finite) =
      ⟨finite (a + xs.sum), finite 0⟩ := by
  induction xs generalizing a with
  | nil => simp [Mass.addAll]
  | cons x xs ih =>
    have step : (Mass.mk (finite a) (finite 0) : Mass Exact).addAll ((x :: xs).map finite) =
        (Mass.mk (finite (a + x)) (finite 0) : Mass Exact).addAll (xs.map finite) := by
      rw [← mass_add_finite]
      rfl
    rw [step, ih, List.sum_cons, add_assoc]

@[simp] theorem total_map_finite (xs : List ℚ) :
    Mass.total (xs.map finite : List Exact) = finite xs.sum := by
  have h := mass_addAll_map_finite 0 xs
  simp only [zero_add] at h
  change (Mass.value ((Mass.mk (finite 0) (finite 0) : Mass Exact).addAll (xs.map finite))) = _
  rw [h]
  simp [Mass.value]

end Extended

end Influence
