import Influence.Proofs.Attained
import Influence.Proofs.DoubleOrder

/-!
# Equal shares of doubles

One divided by a positive whole number, in doubles.  The double nearest to the number is not below
one (`size_nearest`), though it may be infinite.  The quotient is cut off and rounded, which keeps
its sign and adds one bit at most (`roundWithAccuracy_cases`), so it stays far below the greatest
double.  With that, default tables over doubles are finite and not negative
(`Scalar.hasShares_double`).
-/

namespace Influence.Binary64

open Float.Model Float.Model.UnpackedFloat

/-! ## Whole numbers -/

/-- Scaled by its number of bits, a whole number fills a significand. -/
theorem hiddenBit_le_scaled {n : ℕ} (positive : 0 < n) :
    hiddenBit ≤ (scaled n 1 (n.log2 - 52)).1 / (scaled n 1 (n.log2 - 52)).2 := by
  have leading := Nat.log2_self_le positive.ne'
  rw [show hiddenBit = 2 ^ 52 from rfl, scaled]
  split
  case isTrue short =>
    calc 2 ^ 52 = 2 ^ n.log2 * 2 ^ ((n.log2 : ℤ) - 52).natAbs := by
          rw [← pow_add]
          congr 1
          omega
      _ ≤ n * 2 ^ ((n.log2 : ℤ) - 52).natAbs := Nat.mul_le_mul_right _ leading
      _ = _ := (Nat.div_one _).symm
  case isFalse long =>
    refine (Nat.le_div_iff_mul_le (Nat.mul_pos one_pos (Nat.pow_pos two_pos))).mpr ?_
    calc 2 ^ 52 * (1 * 2 ^ ((n.log2 : ℤ) - 52).toNat) = 2 ^ n.log2 := by
          rw [one_mul, ← pow_add]
          congr 1
          omega
      _ ≤ n := leading

theorem le_divideToEven (num den : ℕ) : num / den ≤ divideToEven num den := by
  unfold divideToEven
  dsimp only
  split <;> omega

/-- The double nearest to a positive whole number has a full significand. -/
theorem nearest_whole {n : ℕ} (positive : 0 < n) : ∃ significand exponent,
    nearest n 1 = ofMagnitude significand exponent ∧ hiddenBit ≤ significand ∧ -52 ≤ exponent := by
  have filled := hiddenBit_le_scaled positive
  have exponent : exponentFor n 1 = n.log2 - 52 := by
    unfold exponentFor minExponent
    rw [show Nat.log2 1 = 0 from rfl]
    dsimp only
    rw [Nat.cast_zero, sub_zero, if_neg (Nat.not_lt.mpr filled)]
    omega
  refine ⟨_, n.log2 - 52, ?_, filled.trans (le_divideToEven ..), by omega⟩
  rw [nearest, if_neg positive.ne', exponent]

theorem toNat_toBits_ofMagnitude (significand : ℕ) (exponent : ℤ) :
    (ofMagnitude significand exponent).toBits.toNat =
      min (significand + (exponent - minExponent).toNat * hiddenBit) (2047 * hiddenBit) := by
  unfold ofMagnitude
  dsimp only
  generalize significand + (exponent - minExponent).toNat * hiddenBit = bits
  have word : (UInt64.ofNat (min bits (2047 * hiddenBit))).toNat = min bits (2047 * hiddenBit) := by
    refine UInt64.toNat_ofNat_of_lt' ((Nat.min_le_right ..).trans_lt ?_)
    decide
  rw [toBits_ofBits (word.trans_le (Nat.min_le_right ..)), word]

/-- It is not below one. -/
theorem size_nearest {n : ℕ} (positive : 0 < n) : sign (nearest n 1) = .positive ∧
    (nearest n 1).isNaN = false ∧ 1023 * hiddenBit ≤ size (nearest n 1) := by
  rcases nearest_whole positive with ⟨significand, exponent, magnitude, filled, low⟩
  have bits := toNat_toBits_ofMagnitude significand exponent
  rw [← magnitude] at bits
  generalize nearest n 1 = x at *
  have fields := bits_eq x
  have mantissa := fraction_lt x
  rw [sign_eq_positive_iff, Bool.eq_false_iff, Bool.eq_false_iff, Ne, Ne, isNaN_iff]
  unfold size hiddenBit signBit minExponent at *
  generalize isNegative x = negative at *
  cases negative with
  | false =>
    simp only [Bool.false_eq_true, reduceIte, not_false_eq_true, true_and] at fields ⊢
    omega
  | true =>
    rw [if_pos rfl] at fields
    omega

/-! ## Rounding -/

theorem mantissa_shiftRight (m : ExtendedMantissa) (k : ℕ) :
    (m >>> k).mantissa = m.mantissa / 2 ^ k := by
  induction k with
  | zero => exact (Nat.div_one _).symm
  | succ k ih =>
    change (m >>> k).mantissa / 2 = _
    rw [ih, Nat.div_div_eq_div_mul, pow_succ]

theorem roundedMantissa_le (m : ExtendedMantissa) : m.roundedMantissa ≤ m.mantissa + 1 := by
  rcases m with ⟨m, roundBit, stickyBit⟩
  cases roundBit <;> cases stickyBit <;>
    simp only [ExtendedMantissa.roundedMantissa, ExtendedMantissa.accuracy,
      Accuracy.roundToNearestEven] <;> omega

theorem mantissa_ofMantissaAndAccuracy (m : ℕ) (a : Accuracy) :
    (ExtendedMantissa.ofMantissaAndAccuracy m a).mantissa = m := by
  rcases a with _ | (_ | _ | _) <;> rfl

/-- A significand that loses bits and is rounded up gains a bit at most. -/
theorem log2_le_of_rounded {m r k : ℕ} (h : r ≤ m / 2 ^ k + 1) : r.log2 ≤ m.log2 - k + 1 := by
  rcases Nat.eq_zero_or_pos r with rfl | positive
  · exact Nat.zero_le _
  · have short : m / 2 ^ k < 2 ^ (m.log2 - k + 1) := by
      refine Nat.div_lt_of_lt_mul (Nat.lt_log2_self.trans_le ?_)
      rw [← pow_add]
      exact Nat.pow_le_pow_right two_pos (by omega)
    refine Nat.lt_succ_iff.mp ((Nat.log2_lt positive.ne').mpr ?_)
    rw [pow_succ]
    have := Nat.one_le_two_pow (n := m.log2 - k + 1)
    omega

/-- The exponent to which a significand of so many bits is shifted. -/
theorem targetExponent_eq (total : ℤ) :
    Format.binary64.targetExponent total = max (total - 53) minExponent := rfl

theorem shiftToTargetExponent_eq (m : ℕ) (e : ℤ) (a : Accuracy) :
    (shiftToTargetExponent Format.binary64 m e a).1.mantissa =
        m / 2 ^ (max (totalExponent m e - 53) minExponent - e).toNat ∧
      (shiftToTargetExponent Format.binary64 m e a).2 =
        max e (max (totalExponent m e - 53) minExponent) := by
  refine ⟨?_, ?_⟩
  · change (ExtendedMantissa.ofMantissaAndAccuracy m a >>>
      (Format.binary64.targetExponent (totalExponent m e) - e).toNat).mantissa = _
    rw [mantissa_shiftRight, mantissa_ofMantissaAndAccuracy, targetExponent_eq]
  · change e + ((Format.binary64.targetExponent (totalExponent m e) - e).toNat : ℤ) = _
    rw [targetExponent_eq]
    omega

/-- Rounding keeps the sign, and an exponent stays below a bound that has room for one more bit. -/
theorem roundWithAccuracy_cases (s : Sign) {m : ℕ} {e : ℤ} (a : Accuracy) {b : ℤ} (exponent : e ≤ b)
    (total : totalExponent m e - 52 ≤ b) (low : minExponent ≤ b) :
    roundWithAccuracy Format.binary64 s m e a = .zero s ∨
      ∃ m' e' positive, roundWithAccuracy Format.binary64 s m e a = .finite s m' e' positive ∧
        e' ≤ b := by
  rcases shiftToTargetExponent_eq m e a with ⟨mantissa, shifted⟩
  have bits := log2_le_of_rounded (mantissa ▸
    roundedMantissa_le (shiftToTargetExponent Format.binary64 m e a).1)
  unfold roundWithAccuracy
  dsimp only
  split
  case isTrue => exact .inl rfl
  case isFalse nonzero =>
    refine .inr ⟨_, _, Nat.pos_of_ne_zero nonzero, rfl, ?_⟩
    -- The second shift makes room for the bit that rounding up may have added.
    rw [(shiftToTargetExponent_eq ..).2, shifted]
    unfold totalExponent at *
    omega

/-! ## Quotients -/

/-- A value whose exponent is not too large is packed without becoming infinite. -/
theorem exists_pack {s : Sign} {m : ℕ} {e : ℤ} (positive : 0 < m) (h : e < 972) :
    ∃ exponent mantissa, (UnpackedFloat.finite s m e positive).pack Format.binary64 =
      packComponents Format.binary64 s exponent mantissa ∧ exponent.toNat ≠ 2047 := by
  have bias : Format.binary64.exponentBias = 1023 := rfl
  simp only [UnpackedFloat.pack, bias]
  rw [if_neg (by omega)]
  split
  · refine ⟨_, _, rfl, ?_⟩
    rw [BitVec.toNat_ofNat]
    omega
  · exact ⟨_, _, rfl, by decide⟩

theorem log2_div_le {m k : ℕ} (positive : 0 < m) : (2 ^ k / m).log2 ≤ k - m.log2 := by
  rcases Nat.eq_zero_or_pos (2 ^ k / m) with zero | quotient
  · rw [zero]
    exact Nat.zero_le _
  · refine Nat.lt_succ_iff.mp ((Nat.log2_lt quotient.ne').mpr (Nat.div_lt_of_lt_mul ?_))
    calc 2 ^ k < 2 ^ (m.log2 + (k - m.log2 + 1)) := Nat.pow_lt_pow_right one_lt_two (by omega)
      _ = 2 ^ m.log2 * 2 ^ (k - m.log2 + 1) := pow_add ..
      _ ≤ m * 2 ^ (k - m.log2 + 1) := Nat.mul_le_mul_right _ (Nat.log2_self_le positive.ne')

theorem unpack_one : (Float.ofBits 0x3ff0000000000000).toModel.unpack =
    .finite .positive hiddenBit (-52) (by decide) := rfl

/-- One divided by a value that is not below one stays small. -/
theorem div_one_cases {m : ℕ} {e : ℤ} (positive : 0 < m) (above : 1 ≤ totalExponent m e) :
    ∃ q f a, UnpackedFloat.div Format.binary64 (.finite .positive hiddenBit (-52) (by decide))
        (.finite .positive m e positive) = roundWithAccuracy Format.binary64 .positive q f a ∧
      f ≤ -53 ∧ totalExponent q f ≤ 1 := by
  have unit : totalExponent hiddenBit (-52) = 1 := rfl
  have target := targetExponent_eq (1 - totalExponent m e)
  refine ⟨_, _, _, rfl, ?_, ?_⟩
  · rw [unit, target]
    unfold minExponent
    omega
  · -- The significand of one is a power of two, so the quotient has as many bits as the shift
    -- makes up for.
    rw [unit, Nat.shiftLeft_eq, show hiddenBit = 2 ^ 52 from rfl, ← pow_add]
    have bits := log2_div_le (k := 52 + (-52 - e -
      min (-52 - e) (Format.binary64.targetExponent (1 - totalExponent m e))).toNat) positive
    rw [target] at bits ⊢
    unfold totalExponent minExponent at *
    omega

/-- Above one there are large significands at large exponents. -/
theorem IsMagnitude.one_le_totalExponent {m k : ℕ} {e : ℤ} (h : IsMagnitude m e k)
    (above : 1023 * hiddenBit ≤ k) : 1 ≤ totalExponent m e := by
  obtain ⟨short, low, normal, size⟩ := h
  unfold minExponent at *
  have normal := normal (by unfold hiddenBit at *; omega)
  have bits : 52 ≤ m.log2 := (Nat.le_log2 (by unfold hiddenBit at normal; omega)).mpr normal
  unfold totalExponent hiddenBit at *
  omega

/-- One divided by a value that is not below one is packed as a finite value. -/
theorem exists_pack_div_one {u : UnpackedFloat} {k : ℕ} (h : Sized .positive u k)
    (above : 1023 * hiddenBit ≤ k) :
    ∃ exponent mantissa, (UnpackedFloat.div Format.binary64
        (.finite .positive hiddenBit (-52) (by decide)) u).pack Format.binary64 =
      packComponents Format.binary64 .positive exponent mantissa ∧ exponent.toNat ≠ 2047 := by
  cases h with
  | zero => exact absurd above (by decide)
  | infinity => exact ⟨0, 0, rfl, by decide⟩
  | finite positive magnitude =>
    rcases div_one_cases positive (magnitude.one_le_totalExponent above)
      with ⟨q, f, a, quotient, small, total⟩
    rw [quotient]
    have rounds := roundWithAccuracy_cases .positive (m := q) (e := f) a (b := 0) (by omega)
      (by omega) (by decide)
    rcases rounds with zero | ⟨m', e', positive', rounded, low⟩
    · rw [zero]
      exact ⟨0, 0, rfl, by decide⟩
    · rw [rounded]
      exact exists_pack positive' (by omega)

end Influence.Binary64

namespace Influence

open Binary64

/-- Equal shares are finite and not negative in doubles. -/
theorem Scalar.hasShares_double : Scalar.HasShares Float where
  zero := by decide +kernel
  share n hn := by
    rcases size_nearest hn with ⟨positive, number, above⟩
    have sized := sized_unpack number
    rw [positive] at sized
    rcases exists_pack_div_one sized above with ⟨exponent, mantissa, packed, small⟩
    rw [← unpack_one] at packed
    obtain ⟨sign, biased, -⟩ := fields_of_packComponents (x := 1 / Scalar.ofNat n) packed
    have finite : Scalar.isFinite (1 / Scalar.ofNat n : Float) = true :=
      (isFinite_iff _).mpr (biased ▸ small)
    refine ⟨finite, fun below => ?_⟩
    have negative := ((lt_zero_iff finite).mp below).1
    rw [(sign_eq_positive_iff _).mp sign] at negative
    cases negative

end Influence
