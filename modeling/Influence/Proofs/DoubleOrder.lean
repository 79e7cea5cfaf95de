import Influence.Proofs.Doubles

/-!
# The order of doubles

The fields of a double count the doubles between zero and it (`size`).  Comparing two numbers
compares their sizes, with their signs (`compare_unpack`); the two zeros have one place.  The order
that sorts doubles compares positions, and those tell the zeros apart: a double is its position
(`orderKey_injective`).  Otherwise the two orders are one (`rank_le_of_orderKey_le`).
-/

namespace Influence.Binary64

open Float.Model Float.Model.UnpackedFloat

/-- The number of doubles between zero and a double. -/
def size (x : Float) : ℕ := biased x * hiddenBit + fraction x

/-- The place of a double among the numbers. -/
def rank (x : Float) : ℤ := (sign x).apply (size x : ℤ)

/-! ## Sizes of values -/

/-- The significand and the exponent of a double, with its size. -/
structure IsMagnitude (m : ℕ) (e : ℤ) (k : ℕ) : Prop where
  short : m < 2 * hiddenBit
  low : minExponent ≤ e
  normal : minExponent < e → hiddenBit ≤ m
  size : (k : ℤ) = m + (e - minExponent) * hiddenBit

theorem isMagnitude_magnitude (x : Float) :
    IsMagnitude (magnitude x).1 (magnitude x).2 (size x) := by
  have mantissa := fraction_lt x
  rw [magnitude_eq, size]
  split
  case isTrue zero =>
    exact ⟨by omega, le_rfl, fun above => absurd above (lt_irrefl _), by simp [zero]⟩
  case isFalse nonzero =>
    refine ⟨by simp only; omega, by simp only; omega, fun _ => Nat.le_add_left _ _, ?_⟩
    push_cast
    ring

/-- The values of a sign, with their sizes. -/
inductive Sized (s : Sign) : UnpackedFloat → ℕ → Prop
  | zero : Sized s (.zero s) 0
  | finite {m : ℕ} {e : ℤ} {k : ℕ} (positive : 0 < m) (magnitude : IsMagnitude m e k)
      (away : 0 < k) (bounded : k < 2047 * hiddenBit) : Sized s (.finite s m e positive) k
  | infinity : Sized s (.infinity s) (2047 * hiddenBit)

theorem sized_unpack {x : Float} (h : x.isNaN = false) :
    Sized (sign x) x.toModel.unpack (size x) := by
  have exponent := biased_lt x
  have mantissa := fraction_lt x
  have magnitude := isMagnitude_magnitude x
  rw [unpack_eq]
  split
  case isTrue full =>
    have whole : fraction x = 0 := by
      by_contra nonzero
      rw [(isNaN_iff x).mpr ⟨full, nonzero⟩] at h
      cases h
    rw [if_pos whole, size, full, whole]
    exact .infinity
  case isFalse other =>
    split
    case isTrue zero =>
      -- An empty significand is not normal, so the exponent is the least one.
      have none : size x = 0 := by
        have := magnitude.normal
        have := magnitude.low
        have := magnitude.size
        unfold hiddenBit at *
        omega
      rw [none]
      exact .zero
    case isFalse nonzero =>
      have away : 0 < size x := by
        have := magnitude.low
        have := magnitude.size
        unfold hiddenBit at *
        omega
      have bounded : size x < 2047 * hiddenBit := by
        unfold size hiddenBit at *
        omega
      exact .finite _ magnitude away bounded

/-! ## Comparisons -/

theorem compare_neg_neg (a b : ℤ) : compare (-a) (-b) = compare b a := by
  rcases lt_trichotomy a b with below | rfl | above
  · rw [compare_gt_iff_gt.mpr (neg_lt_neg below), compare_gt_iff_gt.mpr below]
  · rw [compare_eq_iff_eq.mpr rfl, compare_eq_iff_eq.mpr rfl]
  · rw [compare_lt_iff_lt.mpr (neg_lt_neg above), compare_lt_iff_lt.mpr above]

/-- Exponents and then significands compare as the sizes do. -/
theorem IsMagnitude.compare_then {m m' k k' : ℕ} {e e' : ℤ} (h : IsMagnitude m e k)
    (h' : IsMagnitude m' e' k') :
    (compare e e').then (compare m m') = compare (k : ℤ) k' := by
  obtain ⟨short, low, normal, size⟩ := h
  obtain ⟨short', low', normal', size'⟩ := h'
  unfold hiddenBit minExponent at *
  rcases lt_trichotomy e e' with below | rfl | above
  · have less : (k : ℤ) < k' := by omega
    rw [compare_lt_iff_lt.mpr below, compare_lt_iff_lt.mpr less]
    rfl
  · rw [compare_eq_iff_eq.mpr rfl, Ordering.eq_then]
    rcases lt_trichotomy m m' with below | rfl | above
    · have less : (k : ℤ) < k' := by omega
      rw [compare_lt_iff_lt.mpr below, compare_lt_iff_lt.mpr less]
    · have same : (k : ℤ) = k' := by omega
      rw [compare_eq_iff_eq.mpr rfl, compare_eq_iff_eq.mpr same]
    · have more : (k : ℤ) > k' := by omega
      rw [compare_gt_iff_gt.mpr above, compare_gt_iff_gt.mpr more]
  · have more : (k : ℤ) > k' := by omega
    rw [compare_gt_iff_gt.mpr above, compare_gt_iff_gt.mpr more]
    rfl

/-- Values compare as their sizes do, with their signs. -/
theorem compare_sized {s s' : Sign} {u u' : UnpackedFloat} {k k' : ℕ} (h : Sized s u k)
    (h' : Sized s' u' k') :
    u.compare u' = some (compare (s.apply (k : ℤ)) (s'.apply (k' : ℤ))) := by
  have below {a b : ℤ} (lt : a < b) : some Ordering.lt = some (compare a b) :=
    congrArg some (compare_lt_iff_lt.mpr lt).symm
  have above {a b : ℤ} (gt : b < a) : some Ordering.gt = some (compare a b) :=
    congrArg some (compare_gt_iff_gt.mpr gt).symm
  cases h with
  | zero =>
    cases h' with
    | zero => cases s <;> cases s' <;> rfl
    | finite positive' magnitude' away' bounded' =>
      cases s' with
      | positive => exact below (by cases s <;> simp only [Sign.apply] <;> omega)
      | negative => exact above (by cases s <;> simp only [Sign.apply] <;> omega)
    | infinity => cases s <;> cases s' <;> rfl
  | finite positive magnitude away bounded =>
    cases h' with
    | zero =>
      cases s with
      | positive => exact above (by cases s' <;> simp only [Sign.apply] <;> omega)
      | negative => exact below (by cases s' <;> simp only [Sign.apply] <;> omega)
    | finite positive' magnitude' away' bounded' =>
      cases s with
      | positive =>
        cases s' with
        | positive => exact congrArg some (magnitude.compare_then magnitude')
        | negative => exact above (by simp only [Sign.apply]; omega)
      | negative =>
        cases s' with
        | positive => exact below (by simp only [Sign.apply]; omega)
        | negative =>
          refine congrArg some ?_
          rw [magnitude.compare_then magnitude', Int.compare_swap]
          exact (compare_neg_neg _ _).symm
    | infinity =>
      cases s' with
      | positive => exact below (by cases s <;> simp only [Sign.apply] <;> omega)
      | negative => exact above (by cases s <;> simp only [Sign.apply] <;> omega)
  | infinity =>
    cases h' with
    | zero => cases s <;> cases s' <;> rfl
    | finite positive' magnitude' away' bounded' =>
      cases s with
      | positive => exact above (by cases s' <;> simp only [Sign.apply] <;> omega)
      | negative => exact below (by cases s' <;> simp only [Sign.apply] <;> omega)
    | infinity => cases s <;> cases s' <;> rfl

variable {x y : Float}

/-- Numbers compare as their places do. -/
theorem compare_unpack (hx : x.isNaN = false) (hy : y.isNaN = false) :
    x.toModel.unpack.compare y.toModel.unpack = some (compare (rank x) (rank y)) :=
  compare_sized (sized_unpack hx) (sized_unpack hy)

theorem beq_iff_rank (hx : x.isNaN = false) (hy : y.isNaN = false) :
    (x == y) = true ↔ rank x = rank y := by
  rw [beq_eq, compare_unpack hx hy, ← compare_eq_iff_eq (a := rank x)]
  cases compare (rank x) (rank y) <;> decide

theorem lt_iff_rank (hx : x.isNaN = false) (hy : y.isNaN = false) : x < y ↔ rank x < rank y := by
  rw [lt_iff, compare_unpack hx hy, Option.some_inj, compare_lt_iff_lt]

/-! ## The order that sorts -/

theorem orderKey_eq (x : Float) :
    orderKey x = if isNegative x then -1 - (size x : ℤ) else size x := by
  have exponent := biased_lt x
  have mantissa := fraction_lt x
  have bits := bits_eq x
  unfold orderKey size
  dsimp only
  unfold signBit hiddenBit at *
  by_cases negative : isNegative x
  · rw [if_pos negative] at bits ⊢
    rw [if_neg (by omega)]
    omega
  · rw [if_neg negative] at bits ⊢
    rw [if_pos (by omega)]
    omega

theorem rank_eq (x : Float) : rank x = if isNegative x then -(size x : ℤ) else size x := by
  unfold rank sign
  split <;> simp only [Sign.apply]

/-- A double is its position. -/
theorem orderKey_injective : Function.Injective orderKey := by
  intro x y same
  rw [orderKey_eq, orderKey_eq] at same
  have mantissa := fraction_lt x
  have mantissa' := fraction_lt y
  have fields : isNegative x = isNegative y ∧ size x = size y := by
    generalize isNegative x = left, isNegative y = right at same ⊢
    cases left <;> cases right <;>
      simp only [reduceIte, Bool.false_eq_true, true_and, false_and] at same ⊢ <;> omega
  obtain ⟨negative, sizes⟩ := fields
  unfold size hiddenBit at *
  exact eq_of_fields negative (by omega) (by omega)

/-- The order that sorts puts no number before a lesser one. -/
theorem rank_le_of_orderKey_le (h : orderKey x ≤ orderKey y) : rank x ≤ rank y := by
  rw [orderKey_eq, orderKey_eq] at h
  rw [rank_eq, rank_eq]
  generalize isNegative x = left, isNegative y = right at h ⊢
  cases left <;> cases right <;>
    simp only [reduceIte, Bool.false_eq_true] at h ⊢ <;> omega

end Influence.Binary64
