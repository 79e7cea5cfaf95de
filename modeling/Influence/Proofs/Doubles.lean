import Mathlib
import Influence.Number.Binary64

/-!
# Doubles by their fields

The bits of a double are a sign, an exponent and a fraction, and these make up the double
(`bits_eq`, `eq_of_fields`).  The logical model of the floating-point operations speaks of the
value behind the fields; `unpack_eq` gives it in terms of `magnitude`.  From it come the
comparisons with zero and one, the bits of the absolute value (`bits_abs`), and that a double is
determined by its sign and its magnitude (`eq_of_magnitude`).
-/

namespace Influence.Binary64

open Float.Model Float.Model.UnpackedFloat

/-! ## Fields -/

/-- The field of the exponent. -/
def biased (x : Float) : ℕ := x.toBits.toNat / hiddenBit % 2048

/-- The field of the fraction. -/
def fraction (x : Float) : ℕ := x.toBits.toNat % hiddenBit

theorem toNat_unpackMantissa (b : BitVec 64) :
    (@unpackMantissa Format.binary64 b).toNat = b.toNat % hiddenBit := by
  rw [unpackMantissa, BitVec.toNat_cast, BitVec.extractLsb_toNat]
  rfl

theorem toNat_unpackExponent (b : BitVec 64) :
    (@unpackExponent Format.binary64 b).toNat = b.toNat / hiddenBit % 2048 := by
  rw [unpackExponent, BitVec.toNat_cast, BitVec.extractLsb_toNat, Nat.shiftRight_eq_div_pow]
  rfl

theorem toNat_unpackSign (b : BitVec 64) :
    (@unpackSign Format.binary64 b).toNat = b.toNat / signBit := by
  rw [unpackSign, BitVec.toNat_cast, BitVec.extractLsb_toNat, Nat.shiftRight_eq_div_pow]
  have := b.isLt
  change b.toNat / 2 ^ 63 % 2 ^ 1 = b.toNat / 2 ^ 63
  omega

theorem isNegative_iff (x : Float) : isNegative x = true ↔ x.toBits.toNat / signBit = 1 := by
  rw [isNegative, beq_iff_eq, ← UInt64.toNat_inj, UInt64.toNat_shiftRight,
    Nat.shiftRight_eq_div_pow]
  rfl

/-- The sign, as the logical model has it. -/
def sign (x : Float) : Sign := if isNegative x then .negative else .positive

theorem biased_lt (x : Float) : biased x < 2048 := Nat.mod_lt _ (by decide)

theorem fraction_lt (x : Float) : fraction x < hiddenBit := Nat.mod_lt _ (by decide)

/-- The three fields make up the bits. -/
theorem bits_eq (x : Float) : x.toBits.toNat =
    (if isNegative x then signBit else 0) + biased x * hiddenBit + fraction x := by
  have word := x.toBits.toNat_lt
  have negative := isNegative_iff x
  unfold biased fraction
  unfold signBit at negative ⊢
  unfold hiddenBit
  split
  case isTrue h =>
    have := negative.mp h
    omega
  case isFalse h =>
    have := mt negative.mpr h
    omega

/-! ## Values -/

theorem sign_eq (x : Float) :
    Sign.ofBitVec (@unpackSign Format.binary64 x.toBits.toBitVec) = sign x := by
  have word := x.toBits.toNat_lt
  have field := toNat_unpackSign x.toBits.toBitVec
  unfold sign Sign.ofBitVec
  by_cases negative : isNegative x
  · have := (isNegative_iff x).mp negative
    rw [if_pos negative, if_neg]
    intro zero
    rw [zero] at field
    change 0 = x.toBits.toNat / signBit at field
    omega
  · have := mt (isNegative_iff x).mpr negative
    rw [if_neg negative, if_pos]
    apply BitVec.eq_of_toNat_eq
    rw [field]
    change x.toBits.toNat / signBit = 0
    unfold signBit at this ⊢
    omega

/-- The fields of a double are those that it was packed from. -/
theorem fields_of_packComponents {x : Float} {s : Sign} {e : BitVec 11} {m : BitVec 52}
    (h : x.toBits.toBitVec = packComponents Format.binary64 s e m) :
    sign x = s ∧ biased x = e.toNat ∧ fraction x = m.toNat := by
  refine ⟨?_, ?_, ?_⟩
  · rw [← sign_eq, h, unpackSign_packComponents]
    cases s <;> rfl
  · refine (toNat_unpackExponent x.toBits.toBitVec).symm.trans ?_
    rw [h, unpackExponent_packComponents]
  · refine (toNat_unpackMantissa x.toBits.toBitVec).symm.trans ?_
    rw [h, unpackMantissa_packComponents]

theorem sign_eq_positive_iff (x : Float) : sign x = .positive ↔ isNegative x = false := by
  unfold sign
  cases isNegative x <;> simp

/-- Bits up to those of the infinity are kept. -/
theorem toBits_ofBits {b : UInt64} (h : b.toNat ≤ 2047 * hiddenBit) :
    (Float.ofBits b).toBits = b := by
  have valid : Format.binary64.Valid b.toBitVec := by
    refine ⟨fun full nonzero => absurd ?_ nonzero⟩
    have exponent := congrArg BitVec.toNat full
    rw [toNat_unpackExponent] at exponent
    apply BitVec.eq_of_toNat_eq
    rw [toNat_unpackMantissa]
    change b.toNat / hiddenBit % 2048 = 2047 at exponent
    change b.toNat % hiddenBit = 0
    unfold hiddenBit at *
    omega
  exact UInt64.toBitVec_inj.mp (pack_unpack_of_valid valid)

theorem magnitude_eq (x : Float) : magnitude x =
    if biased x = 0 then (fraction x, minExponent)
    else (fraction x + hiddenBit, (biased x : ℤ) + (minExponent - 1)) := rfl

/-- The value behind the fields. -/
theorem unpack_eq (x : Float) : x.toModel.unpack =
    if biased x = 2047 then if fraction x = 0 then .infinity (sign x) else .notANumber
    else if h : (magnitude x).1 = 0 then .zero (sign x)
    else .finite (sign x) (magnitude x).1 (magnitude x).2 (Nat.pos_of_ne_zero h) := by
  have exponent : (@unpackExponent Format.binary64 x.toBits.toBitVec).toNat = biased x :=
    toNat_unpackExponent _
  have mantissa : (@unpackMantissa Format.binary64 x.toBits.toBitVec).toNat = fraction x :=
    toNat_unpackMantissa _
  have full : @unpackExponent Format.binary64 x.toBits.toBitVec = -1#11 ↔ biased x = 2047 := by
    rw [← BitVec.toNat_inj, exponent]
    rfl
  have empty : @unpackExponent Format.binary64 x.toBits.toBitVec = 0#11 ↔ biased x = 0 := by
    rw [← BitVec.toNat_inj, exponent]
    rfl
  have whole : @unpackMantissa Format.binary64 x.toBits.toBitVec = 0#52 ↔ fraction x = 0 := by
    rw [← BitVec.toNat_inj, mantissa]
    rfl
  change UnpackedFloat.unpack Format.binary64 x.toBits.toBitVec = _
  unfold UnpackedFloat.unpack
  dsimp only
  rw [sign_eq, magnitude_eq]
  by_cases hfull : biased x = 2047
  · rw [if_pos (full.mpr hfull), if_pos hfull]
    by_cases hwhole : fraction x = 0
    · rw [if_pos (whole.mpr hwhole), if_pos hwhole]
    · rw [if_neg (mt whole.mp hwhole), if_neg hwhole]
  · rw [if_neg (mt full.mp hfull), if_neg hfull]
    by_cases hempty : biased x = 0
    · rw [if_pos (empty.mpr hempty)]
      simp only [hempty, if_true]
      by_cases hwhole : fraction x = 0
      · rw [dif_pos (whole.mpr hwhole), dif_pos hwhole]
      · rw [dif_neg (mt whole.mp hwhole), dif_neg hwhole]
        congr 1
        rw [exponent, hempty]
        rfl
    · rw [if_neg (mt empty.mp hempty)]
      simp only [hempty, if_false]
      rw [dif_neg (by unfold hiddenBit; omega)]
      congr 1
      · rw [BitVec.toNat_append, mantissa, ← Nat.shiftLeft_add_eq_or_of_lt (fraction_lt x)]
        rw [Nat.add_comm]
        rfl
      · rw [exponent]
        rfl

theorem isFinite_iff (x : Float) : x.isFinite = true ↔ biased x ≠ 2047 := by
  change x.toModel.unpack.isFinite = true ↔ _
  rw [unpack_eq]
  split
  case isTrue full => split <;> simp [UnpackedFloat.isFinite, full]
  case isFalse other => split <;> simp [UnpackedFloat.isFinite, other]

theorem isNaN_iff (x : Float) : x.isNaN = true ↔ biased x = 2047 ∧ fraction x ≠ 0 := by
  change x.toModel.unpack.isNaN = true ↔ _
  rw [unpack_eq]
  split
  case isTrue full => split <;> simp_all [UnpackedFloat.isNaN]
  case isFalse other => split <;> simp [UnpackedFloat.isNaN, other]

theorem isNaN_of_isFinite {x : Float} (h : x.isFinite = true) : x.isNaN = false := by
  cases other : x.isNaN
  · rfl
  · exact absurd ((isNaN_iff x).mp other).1 ((isFinite_iff x).mp h)

/-- A double is its sign, its exponent and its fraction. -/
theorem eq_of_fields {x y : Float} (negative : isNegative x = isNegative y)
    (exponent : biased x = biased y) (mantissa : fraction x = fraction y) : x = y := by
  rw [← Float.toBits_inj, ← UInt64.toNat_inj, bits_eq, bits_eq, negative, exponent, mantissa]

theorem eq_of_isNaN {x y : Float} (hx : x.isNaN = true) (hy : y.isNaN = true) : x = y := by
  rw [Float.isNaN_eq_decide_eq_nan, decide_eq_true_eq] at hx hy
  exact hx.trans hy.symm

theorem eq_of_isInfinite {x y : Float} (hx : x.isFinite = false) (hx' : x.isNaN = false)
    (hy : y.isFinite = false) (hy' : y.isNaN = false) (negative : isNegative x = isNegative y) :
    x = y := by
  have infinite {x : Float} (h : x.isFinite = false) (h' : x.isNaN = false) :
      biased x = 2047 ∧ fraction x = 0 := by
    have full : biased x = 2047 := by
      by_contra other
      rw [(isFinite_iff x).mpr other] at h
      cases h
    refine ⟨full, ?_⟩
    by_contra nonzero
    rw [(isNaN_iff x).mpr ⟨full, nonzero⟩] at h'
    cases h'
  obtain ⟨full, empty⟩ := infinite hx hx'
  obtain ⟨full', empty'⟩ := infinite hy hy'
  exact eq_of_fields negative (full.trans full'.symm) (empty.trans empty'.symm)

theorem fields_of_magnitude {x y : Float} (h : magnitude x = magnitude y) :
    biased x = biased y ∧ fraction x = fraction y := by
  have small := fraction_lt x
  have small' := fraction_lt y
  rw [magnitude_eq, magnitude_eq] at h
  split at h
  case isTrue zero =>
    split at h
    case isTrue zero' => exact ⟨zero.trans zero'.symm, (Prod.mk.inj h).1⟩
    case isFalse =>
      have := (Prod.mk.inj h).1
      omega
  case isFalse =>
    split at h
    case isTrue =>
      have := (Prod.mk.inj h).1
      omega
    case isFalse =>
      obtain ⟨mantissa, exponent⟩ := Prod.mk.inj h
      omega

/-- A double is its sign and its magnitude. -/
theorem eq_of_magnitude {x y : Float} (negative : isNegative x = isNegative y)
    (h : magnitude x = magnitude y) : x = y := by
  obtain ⟨exponent, mantissa⟩ := fields_of_magnitude h
  exact eq_of_fields negative exponent mantissa

/-! ## Comparisons -/

theorem unpack_zero : (Float.ofBits 0).toModel.unpack = .zero .positive := rfl

theorem beq_eq (x y : Float) :
    (x == y) = (x.toModel.unpack.compare y.toModel.unpack == some .eq) := rfl

theorem lt_iff (x y : Float) :
    x < y ↔ x.toModel.unpack.compare y.toModel.unpack = some .lt := by
  change (decide ((x.toModel.unpack.compare y.toModel.unpack == some .lt) = true)) = true ↔ _
  simp

theorem beq_zero_iff {x : Float} (h : x.isFinite = true) :
    (x == Float.ofBits 0) = true ↔ (magnitude x).1 = 0 := by
  rw [beq_eq, unpack_eq, if_neg ((isFinite_iff x).mp h), unpack_zero]
  split
  case isTrue zero => simp [zero, UnpackedFloat.compare]
  case isFalse nonzero => cases sign x <;> simp [nonzero, UnpackedFloat.compare]

theorem lt_zero_iff {x : Float} (h : x.isFinite = true) :
    x < Float.ofBits 0 ↔ isNegative x = true ∧ (magnitude x).1 ≠ 0 := by
  rw [lt_iff, unpack_eq, if_neg ((isFinite_iff x).mp h), unpack_zero]
  split
  case isTrue zero => simp [zero, UnpackedFloat.compare]
  case isFalse nonzero =>
    cases negative : isNegative x <;> simp [nonzero, UnpackedFloat.compare, sign, negative]

/-! ## The absolute value -/

/-- A value is packed in fields of which the absolute value changes only the sign. -/
theorem exists_packComponents {u : UnpackedFloat} (number : u ≠ .notANumber) : ∃ s e m,
    u.pack Format.binary64 = packComponents Format.binary64 s e m ∧
      u.abs.pack Format.binary64 = packComponents Format.binary64 .positive e m := by
  cases u with
  | notANumber => exact absurd rfl number
  | infinity s => exact ⟨s, _, _, rfl, rfl⟩
  | zero s => exact ⟨s, _, _, rfl, rfl⟩
  | finite s m e positive =>
    simp only [UnpackedFloat.abs, UnpackedFloat.pack]
    split
    · exact ⟨s, _, _, rfl, rfl⟩
    · split <;> exact ⟨s, _, _, rfl, rfl⟩

/-- The absolute value differs in its sign only. -/
theorem fields_abs {x : Float} (h : x.isNaN = false) :
    isNegative x.abs = false ∧ biased x.abs = biased x ∧ fraction x.abs = fraction x := by
  have number : x.toModel.unpack ≠ .notANumber := by
    intro other
    rw [show x.isNaN = x.toModel.unpack.isNaN from rfl, other] at h
    cases h
  obtain ⟨s, e, m, packed, made⟩ := exists_packComponents number
  have bits : x.toBits.toBitVec = packComponents Format.binary64 s e m := by
    rw [← packed]
    exact (pack_unpack_of_valid x.toModel.valid).symm
  obtain ⟨-, exponent, mantissa⟩ := fields_of_packComponents bits
  obtain ⟨positive, exponent', mantissa'⟩ := fields_of_packComponents (x := x.abs) made
  exact ⟨(sign_eq_positive_iff _).mp positive, exponent'.trans exponent.symm,
    mantissa'.trans mantissa.symm⟩

theorem magnitude_abs {x : Float} (h : x.isNaN = false) : magnitude x.abs = magnitude x := by
  obtain ⟨-, exponent, mantissa⟩ := fields_abs h
  rw [magnitude_eq, magnitude_eq, exponent, mantissa]

theorem isFinite_abs {x : Float} (h : x.isFinite = true) : x.abs.isFinite = true := by
  obtain ⟨-, exponent, -⟩ := fields_abs (isNaN_of_isFinite h)
  rw [isFinite_iff, exponent]
  exact (isFinite_iff x).mp h

/-! ## Recovering a double -/

/-- Only one double is equal to one. -/
theorem eq_one_of_beq {x : Float} (one : (x == Float.ofBits 0x3ff0000000000000) = true) :
    x = Float.ofBits 0x3ff0000000000000 := by
  obtain ⟨-, -, same | ⟨-, zero⟩ | ⟨-, zero⟩⟩ := Float.beq_iff_ne_nan_and_eq.mp one
  · exact same
  · exact absurd zero (by decide +kernel)
  · exact absurd zero (by decide +kernel)

/-- A double that is not a zero is on which side of zero it lies, and how far. -/
theorem eq_of_abs {x y : Float} (hx : x.isFinite = true) (hy : y.isFinite = true)
    (nonzero : (x == Float.ofBits 0) = false) (side : x < Float.ofBits 0 ↔ y < Float.ofBits 0)
    (distance : x.abs = y.abs) : x = y := by
  have same : magnitude x = magnitude y := by
    rw [← magnitude_abs (isNaN_of_isFinite hx), distance, magnitude_abs (isNaN_of_isFinite hy)]
  have away : (magnitude x).1 ≠ 0 := by
    rw [Ne, ← beq_zero_iff hx, nonzero]
    exact Bool.false_ne_true
  rw [lt_zero_iff hx, lt_zero_iff hy, ← same, and_iff_left away, and_iff_left away] at side
  exact eq_of_magnitude (Bool.eq_iff_iff.mpr side) same

end Influence.Binary64
