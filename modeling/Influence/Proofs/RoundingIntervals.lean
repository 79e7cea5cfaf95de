import Influence.Number.Shortest
import Influence.Proofs.Doubles

/-!
# Shortest digits read back as one double

Every grid of seventeen digits is finer than the rounding interval of a double is wide, so the
search for the shortest digits ends with a candidate, and that lies in the interval
(`holds_ofMagnitude`).  Rounding intervals of different doubles are disjoint: where two of them
meet, at most one keeps the common end (`eq_of_holds`).  Hence the value of the shortest digits
determines the magnitude of the double (`magnitude_eq_of_value_eq`).
-/

namespace Influence

namespace Decimal

/-- The rational a decimal magnitude stands for. -/
def value (d : Decimal) : ℚ := d.digits * 10 ^ d.exponent

theorem value_strip (d : Decimal) : d.strip.value = d.value := by
  fun_induction strip d with
  | case1 d h ih =>
    have whole : d.digits = 10 * (d.digits / 10) := by omega
    calc (strip ⟨d.digits / 10, d.exponent + 1⟩).value
        = (d.digits / 10 : ℕ) * 10 ^ (d.exponent + 1) := ih
      _ = (10 * (d.digits / 10) : ℕ) * 10 ^ d.exponent := by
          rw [zpow_add_one₀ (by norm_num)]
          push_cast
          ring
      _ = d.value := by rw [← whole, value]
  | case2 d h => rfl

end Decimal

namespace Shortest

namespace Interval

/-! ## Candidates -/

variable {i : Interval}

/-- The rationals that read back. -/
def Holds (i : Interval) (q : ℚ) : Prop :=
  if i.closed then (i.low : ℚ) / i.den ≤ q ∧ q ≤ i.high / i.den
  else (i.low : ℚ) / i.den < q ∧ q < i.high / i.den

theorem contains_iff (positive : 0 < i.den) {n scale : ℕ} (h : 0 < scale) :
    i.contains n scale = true ↔ i.Holds (n / scale) := by
  have den : (0 : ℚ) < i.den := Nat.cast_pos.mpr positive
  have unit : (0 : ℚ) < scale := Nat.cast_pos.mpr h
  unfold contains Holds
  split
  · rw [Bool.and_eq_true, decide_eq_true_eq, decide_eq_true_eq, div_le_div_iff₀ den unit,
      div_le_div_iff₀ unit den]
    norm_cast
  · rw [Bool.and_eq_true, decide_eq_true_eq, decide_eq_true_eq, div_lt_div_iff₀ den unit,
      div_lt_div_iff₀ unit den]
    norm_cast

theorem contains_of_inside {n scale : ℕ} (low : i.low * scale < n * i.den)
    (high : n * i.den < i.high * scale) : i.contains n scale = true := by
  unfold contains
  split
  · simp [low.le, high.le]
  · simp [low, high]

theorem contains_of_candidate {tie : Tie} {step scale m : ℕ}
    (h : i.candidate tie step scale = some m) : i.contains (m * step) scale = true := by
  unfold candidate at h
  dsimp only at h
  split at h
  case h_1 below above =>
    split at h
    · cases h
      exact below
    · split at h
      · cases h
        exact above
      · cases tie with
        | away =>
          cases h
          exact above
        | toEven =>
          cases h
          split
          · exact below
          · exact above
  case h_2 below _ =>
    cases h
    exact below
  case h_3 _ above =>
    cases h
    exact above
  case h_4 => cases h

/-- A grid finer than the interval has a point in it. -/
theorem isSome_candidate (tie : Tie) {step scale : ℕ} (grid : 0 < i.den * step) (unit : 0 < scale)
    (low : i.low < i.value) (high : i.value < i.high)
    (fine : step * i.den + i.low * scale < i.high * scale) :
    (i.candidate tie step scale).isSome = true := by
  have left := Nat.mul_lt_mul_of_pos_right low unit
  have right := Nat.mul_lt_mul_of_pos_right high unit
  have under := Nat.div_mul_le_self (i.value * scale) (i.den * step)
  have beyond := Nat.lt_div_mul_add grid (a := i.value * scale)
  have reads : i.contains (i.value * scale / (i.den * step) * step) scale = true ∨
      i.contains ((i.value * scale / (i.den * step) + 1) * step) scale = true := by
    have first : i.value * scale / (i.den * step) * step * i.den =
        i.value * scale / (i.den * step) * (i.den * step) := by ring
    have second : (i.value * scale / (i.den * step) + 1) * step * i.den =
        i.value * scale / (i.den * step) * (i.den * step) + i.den * step := by ring
    by_cases meets : i.low * scale < i.value * scale / (i.den * step) * (i.den * step)
    · left
      apply contains_of_inside <;> rw [first]
      · exact meets
      · omega
    · right
      rw [Nat.mul_comm step] at fine
      apply contains_of_inside <;> rw [second] <;> omega
  unfold candidate
  dsimp only
  split
  · split
    · rfl
    · split
      · rfl
      · cases tie <;> rfl
  · rfl
  · rfl
  case h_4 below above =>
    rw [below, above] at reads
    simp at reads

/-! ## Digits -/

theorem ten_pow_eq {e : ℤ} : (10 : ℚ) ^ e =
    if e < 0 then 1 / ((10 ^ e.natAbs : ℕ) : ℚ) else ((10 ^ e.toNat : ℕ) : ℚ) := by
  split
  case isTrue negative =>
    have power : e = -(e.natAbs : ℤ) := by omega
    conv_lhs => rw [power, zpow_neg, zpow_natCast]
    push_cast
    rw [one_div]
  case isFalse natural =>
    have power : e = (e.toNat : ℤ) := by omega
    conv_lhs => rw [power, zpow_natCast]
    push_cast
    rfl

theorem holds_of_ofWidth (positive : 0 < i.den) {tie : Tie} {point : ℤ} {width : ℕ} {d : Decimal}
    (h : i.ofWidth tie point width = some d) : i.Holds d.value := by
  unfold ofWidth at h
  dsimp only at h
  obtain ⟨m, found, rfl⟩ := Option.map_eq_some_iff.mp h
  rw [Decimal.value, ten_pow_eq]
  split at found
  case isTrue negative =>
    have reads := (contains_iff positive (Nat.pow_pos (by decide))).mp (contains_of_candidate found)
    rw [if_pos negative, ← div_eq_mul_one_div]
    rwa [Nat.mul_one] at reads
  case isFalse natural =>
    have reads := (contains_iff positive Nat.one_pos).mp (contains_of_candidate found)
    rw [if_neg natural]
    rwa [Nat.cast_one, div_one, Nat.cast_mul] at reads

/-- Digits finer than the interval is wide have a candidate. -/
theorem isSome_ofWidth (positive : 0 < i.den) (tie : Tie) {point : ℤ} {width : ℕ}
    (low : i.low < i.value) (high : i.value < i.high)
    (fine : (10 : ℚ) ^ (point - width) < i.high / i.den - i.low / i.den) :
    (i.ofWidth tie point width).isSome = true := by
  have den : (0 : ℚ) < i.den := Nat.cast_pos.mpr positive
  rw [← sub_div, lt_div_iff₀ den, ten_pow_eq] at fine
  unfold ofWidth
  dsimp only
  rw [Option.isSome_map]
  split
  case isTrue negative =>
    have unit : (0 : ℚ) < ((10 ^ (point - width).natAbs : ℕ) : ℚ) := by positivity
    rw [if_pos negative, one_div_mul_eq_div, div_lt_iff₀ unit, sub_mul, lt_sub_iff_add_lt] at fine
    apply isSome_candidate tie (by omega) (Nat.pow_pos (by decide)) low high
    rw [Nat.one_mul]
    exact_mod_cast fine
  case isFalse natural =>
    rw [if_neg natural, lt_sub_iff_add_lt] at fine
    apply isSome_candidate tie (Nat.mul_pos positive (Nat.pow_pos (by decide))) Nat.one_pos low high
    rw [Nat.mul_one, Nat.mul_one]
    exact_mod_cast fine

/-- Where the test for a point fails, the value is at least the power of ten. -/
theorem ten_pow_le_of_not_below (positive : 0 < i.den) {p : ℤ}
    (h : (if p < 0 then decide (i.value * Nat.pow 10 p.natAbs < i.den)
      else decide (i.value < i.den * Nat.pow 10 p.toNat)) = false) :
    (10 : ℚ) ^ p ≤ i.value / i.den := by
  have den : (0 : ℚ) < i.den := Nat.cast_pos.mpr positive
  rw [le_div_iff₀ den, ten_pow_eq]
  split at h
  case isTrue negative =>
    have unit : (0 : ℚ) < ((10 ^ p.natAbs : ℕ) : ℚ) := by positivity
    rw [decide_eq_false_iff_not, Nat.not_lt] at h
    rw [if_pos negative, one_div_mul_eq_div, div_le_iff₀ unit]
    exact_mod_cast h
  case isFalse natural =>
    rw [decide_eq_false_iff_not, Nat.not_lt, Nat.mul_comm] at h
    rw [if_neg natural]
    exact_mod_cast h

/-- The value lies at or above the power of ten below the point, if it does so for a guess of
the point that is too low by two. -/
theorem ten_pow_point_le (positive : 0 < i.den)
    (guess : (10 : ℚ) ^ (((i.value.log2 : ℤ) - i.den.log2) * 30103 / 100000 - 2) ≤
      i.value / i.den) : (10 : ℚ) ^ (i.point - 1) ≤ i.value / i.den := by
  unfold point
  dsimp only
  generalize ((i.value.log2 : ℤ) - i.den.log2) * 30103 / 100000 = g at guess ⊢
  simp only [List.find?_cons, List.find?_nil]
  split
  · have back : g - 1 - 1 = g - 2 := by omega
    rw [Option.getD_some, back]
    exact guess
  case h_2 first =>
    split
    · exact ten_pow_le_of_not_below positive first
    case h_2 second =>
      split
      · have back : g + 1 - 1 = g := by omega
        rw [Option.getD_some, back]
        exact ten_pow_le_of_not_below positive second
      case h_2 third =>
        split
        · have back : g + 2 - 1 = g + 1 := by omega
          rw [Option.getD_some, back]
          exact ten_pow_le_of_not_below positive third
        case h_2 fourth =>
          have back : g + 3 - 1 = g + 2 := by omega
          rw [Option.getD_none, back]
          exact ten_pow_le_of_not_below positive fourth

end Interval

/-- A binary exponent converts to a decimal one that is too high by at most two. -/
theorem ten_pow_le_two_pow {g k : ℤ} (guess : g = k * 30103 / 100000) (low : -1075 ≤ k)
    (high : k ≤ 1024) : (10 : ℚ) ^ (g - 2) ≤ 2 ^ k := by
  obtain up | down : 2 ≤ g ∨ g < 2 := by omega
  · -- Fifty-nine powers of ten are below a hundred and ninety-six of two.
    obtain ⟨n, rfl⟩ : ∃ n : ℕ, g = n + 2 := ⟨(g - 2).toNat, by omega⟩
    obtain ⟨m, rfl⟩ : ∃ m : ℕ, k = m := ⟨k.toNat, by omega⟩
    have exponent : n * 196 ≤ m * 59 := by omega
    have powers : (10 ^ n) ^ 59 ≤ (2 ^ m) ^ 59 := by
      calc (10 ^ n) ^ 59 = (10 ^ 59) ^ n := by rw [← pow_mul, ← pow_mul, Nat.mul_comm]
        _ ≤ (2 ^ 196) ^ n := Nat.pow_le_pow_left (by norm_num) n
        _ = 2 ^ (n * 196) := by rw [← pow_mul, Nat.mul_comm]
        _ ≤ 2 ^ (m * 59) := Nat.pow_le_pow_right (by norm_num) exponent
        _ = (2 ^ m) ^ 59 := pow_mul 2 m 59
    have least : 10 ^ n ≤ 2 ^ m := (Nat.pow_le_pow_iff_left (by norm_num)).mp powers
    rw [add_sub_cancel_right, zpow_natCast, zpow_natCast]
    exact_mod_cast least
  · -- Ninety-three powers of two are below twenty-eight of ten.
    obtain ⟨n, rfl⟩ : ∃ n : ℕ, g = 2 - n := ⟨(2 - g).toNat, by omega⟩
    have exponent : (-k).toNat * 28 ≤ n * 93 := by omega
    have powers : (2 ^ (-k).toNat) ^ 28 ≤ (10 ^ n) ^ 28 := by
      calc (2 ^ (-k).toNat) ^ 28 = 2 ^ ((-k).toNat * 28) := (pow_mul 2 _ 28).symm
        _ ≤ 2 ^ (n * 93) := Nat.pow_le_pow_right (by norm_num) exponent
        _ = (2 ^ 93) ^ n := by rw [← pow_mul, Nat.mul_comm]
        _ ≤ (10 ^ 28) ^ n := Nat.pow_le_pow_left (by norm_num) n
        _ = (10 ^ n) ^ 28 := by rw [← pow_mul, ← pow_mul, Nat.mul_comm]
    have least : 2 ^ (-k).toNat ≤ 10 ^ n := (Nat.pow_le_pow_iff_left (by norm_num)).mp powers
    calc (10 : ℚ) ^ (2 - (n : ℤ) - 2) = (10 ^ n)⁻¹ := by
          rw [sub_sub_cancel_left, zpow_neg, zpow_natCast]
      _ ≤ (2 ^ (-k).toNat)⁻¹ := inv_anti₀ (by positivity) (by exact_mod_cast least)
      _ = 2 ^ (-((-k).toNat : ℤ)) := by rw [zpow_neg, zpow_natCast]
      _ ≤ 2 ^ k := zpow_le_zpow_right₀ (by norm_num) (by omega)

/-! ## The interval of a double -/

/-- The significands and exponents of positive doubles. -/
structure Canonical (significand : ℕ) (exponent : ℤ) : Prop where
  positive : 0 < significand
  bounded : significand < 2 * Binary64.hiddenBit
  low : Binary64.minExponent ≤ exponent
  high : exponent ≤ 971
  full : exponent = Binary64.minExponent ∨ Binary64.hiddenBit ≤ significand

/-- Four times the significand less the lower half-gap. -/
def lowEnd (significand : ℕ) (exponent : ℤ) : ℕ :=
  if significand = Binary64.hiddenBit ∧ Binary64.minExponent < exponent then 4 * significand - 1
  else 4 * significand - 2

variable {s t : ℕ} {e f : ℤ}

theorem unit_div (e : ℤ) : ((2 ^ (e - 2).toNat : ℕ) : ℚ) / ((2 ^ (2 - e).toNat : ℕ) : ℚ) =
    2 ^ (e - 2) := by
  have power : e - 2 = ((e - 2).toNat : ℤ) - ((2 - e).toNat : ℤ) := by omega
  conv_rhs => rw [power, zpow_sub₀ (by norm_num), zpow_natCast, zpow_natCast]
  push_cast
  rfl

theorem low_eq (s : ℕ) (e : ℤ) : ((Interval.ofMagnitude s e).low : ℚ) /
    (Interval.ofMagnitude s e).den = lowEnd s e * 2 ^ (e - 2) := by
  rw [← unit_div, mul_div_assoc']
  norm_cast

theorem value_eq (s : ℕ) (e : ℤ) : ((Interval.ofMagnitude s e).value : ℚ) /
    (Interval.ofMagnitude s e).den = (4 * s : ℕ) * 2 ^ (e - 2) := by
  rw [← unit_div, mul_div_assoc']
  norm_cast

theorem high_eq (s : ℕ) (e : ℤ) : ((Interval.ofMagnitude s e).high : ℚ) /
    (Interval.ofMagnitude s e).den = (4 * s + 2 : ℕ) * 2 ^ (e - 2) := by
  rw [← unit_div, mul_div_assoc']
  norm_cast

theorem den_pos (s : ℕ) (e : ℤ) : 0 < (Interval.ofMagnitude s e).den := Nat.pow_pos (by decide)

theorem two_pow_sub (n j : ℕ) :
    (2 : ℚ) ^ ((n : ℤ) - j) = ((2 ^ n : ℕ) : ℚ) / ((2 ^ j : ℕ) : ℚ) := by
  rw [zpow_sub₀ (by norm_num), zpow_natCast, zpow_natCast]
  push_cast
  rfl

/-- The binary logarithm of a quotient by a power of two is exact. -/
theorem two_pow_log2_le {v : ℕ} (nonzero : v ≠ 0) (j : ℕ) :
    (2 : ℚ) ^ ((v.log2 : ℤ) - j) ≤ v / ((2 ^ j : ℕ) : ℚ) := by
  rw [two_pow_sub]
  apply div_le_div_of_nonneg_right _ (by positivity)
  exact_mod_cast Nat.log2_self_le nonzero

theorem lt_two_pow_log2 (v j : ℕ) :
    v / ((2 ^ j : ℕ) : ℚ) < 2 ^ ((v.log2 : ℤ) - j + 1) := by
  have next : (v.log2 : ℤ) - j + 1 = ((v.log2 + 1 : ℕ) : ℤ) - j := by
    push_cast
    ring
  rw [next, two_pow_sub]
  apply div_lt_div_of_pos_right _ (by positivity)
  exact_mod_cast Nat.lt_log2_self

theorem two_pow_le_value (h : Canonical s e) :
    (2 : ℚ) ^ (-1074 : ℤ) ≤ (4 * s : ℕ) * 2 ^ (e - 2) := by
  calc (2 : ℚ) ^ (-1074 : ℤ) ≤ 2 ^ e := zpow_le_zpow_right₀ (by norm_num) h.low
    _ = (4 : ℕ) * 2 ^ (e - 2) := by
        rw [zpow_sub₀ (by norm_num)]
        norm_num
        ring
    _ ≤ (4 * s : ℕ) * 2 ^ (e - 2) := by
        apply mul_le_mul_of_nonneg_right _ (by positivity)
        exact_mod_cast Nat.le_mul_of_pos_right 4 h.positive

theorem value_le_two_pow (h : Canonical s e) :
    ((4 * s : ℕ) : ℚ) * 2 ^ (e - 2) ≤ 2 ^ (1024 : ℤ) := by
  have bounded := h.bounded
  have high := h.high
  unfold Binary64.hiddenBit at bounded
  calc ((4 * s : ℕ) : ℚ) * 2 ^ (e - 2) ≤ (2 ^ 55 : ℕ) * 2 ^ (971 - 2 : ℤ) := by
        apply mul_le_mul _ _ (by positivity) (by positivity)
        · exact_mod_cast (show 4 * s ≤ 2 ^ 55 by omega)
        · exact zpow_le_zpow_right₀ (by norm_num) (by omega)
    _ = 2 ^ (1024 : ℤ) := by
        rw [Nat.cast_pow, ← zpow_natCast, Nat.cast_ofNat, ← zpow_add₀ (by norm_num)]
        rfl

/-- The guess of the point is too high by at most two. -/
theorem ten_pow_guess_le (h : Canonical s e) :
    (10 : ℚ) ^ ((((Interval.ofMagnitude s e).value.log2 : ℤ) -
      (Interval.ofMagnitude s e).den.log2) * 30103 / 100000 - 2) ≤
      ((Interval.ofMagnitude s e).value : ℚ) / (Interval.ofMagnitude s e).den := by
  have power : (Interval.ofMagnitude s e).den = 2 ^ (2 - e).toNat := rfl
  have nonzero : (Interval.ofMagnitude s e).value ≠ 0 :=
    Nat.mul_ne_zero (Nat.mul_ne_zero (by decide) h.positive.ne') (Nat.pow_pos (by decide)).ne'
  have exact := value_eq s e
  have below := two_pow_log2_le nonzero (2 - e).toNat
  have above := lt_two_pow_log2 (Interval.ofMagnitude s e).value (2 - e).toNat
  rw [power] at exact ⊢
  rw [Nat.log2_two_pow]
  refine (ten_pow_le_two_pow rfl ?_ ?_).trans below
  · rw [exact] at above
    have least := (zpow_lt_zpow_iff_right₀ (by norm_num)).mp ((two_pow_le_value h).trans_lt above)
    omega
  · rw [exact] at below
    exact (zpow_le_zpow_iff_right₀ (by norm_num)).mp (below.trans (value_le_two_pow h))

/-- Seventeen digits are finer than the interval is wide. -/
theorem ten_pow_point_sub_lt (h : Canonical s e) :
    (10 : ℚ) ^ ((Interval.ofMagnitude s e).point - (17 : ℕ)) <
      (Interval.ofMagnitude s e).high / (Interval.ofMagnitude s e).den -
        (Interval.ofMagnitude s e).low / (Interval.ofMagnitude s e).den := by
  have reach := Interval.ten_pow_point_le (den_pos s e) (ten_pow_guess_le h)
  have gap : ((4 * s : ℕ) : ℚ) < ((4 * s + 2 : ℕ) - lowEnd s e) * 10 ^ 16 := by
    have room : 4 * s + lowEnd s e * 10 ^ 16 < (4 * s + 2) * 10 ^ 16 := by
      have positive := h.positive
      have bounded := h.bounded
      unfold lowEnd
      unfold Binary64.hiddenBit at bounded ⊢
      split <;> omega
    rw [sub_mul, lt_sub_iff_add_lt]
    exact_mod_cast room
  rw [value_eq] at reach
  rw [high_eq, low_eq, ← sub_mul]
  calc (10 : ℚ) ^ ((Interval.ofMagnitude s e).point - (17 : ℕ))
      = 10 ^ ((Interval.ofMagnitude s e).point - 1) / 10 ^ 16 := by
        rw [← zpow_natCast, ← zpow_sub₀ (by norm_num)]
        congr 1
        push_cast
        ring
    _ ≤ (4 * s : ℕ) * 2 ^ (e - 2) / 10 ^ 16 := div_le_div_of_nonneg_right reach (by positivity)
    _ < ((4 * s + 2 : ℕ) - lowEnd s e) * 2 ^ (e - 2) := by
        rw [div_lt_iff₀ (by positivity), mul_right_comm]
        exact mul_lt_mul_of_pos_right gap (by positivity)

/-- The digits of a double read back as it. -/
theorem holds_ofMagnitude (h : Canonical s e) (tie : Tie) :
    (Interval.ofMagnitude s e).Holds (ofMagnitude tie s e).value := by
  have positive := h.positive
  have unit : 0 < Nat.pow 2 (e - 2).toNat := Nat.pow_pos (by decide)
  have low : (Interval.ofMagnitude s e).low < (Interval.ofMagnitude s e).value := by
    apply Nat.mul_lt_mul_of_pos_right _ unit
    split <;> omega
  have high : (Interval.ofMagnitude s e).value < (Interval.ofMagnitude s e).high :=
    Nat.mul_lt_mul_of_pos_right (by omega) unit
  have found := Interval.isSome_ofWidth (den_pos s e) tie low high (ten_pow_point_sub_lt h)
  unfold ofMagnitude
  dsimp only
  split
  case h_1 d first =>
    obtain ⟨n, -, width⟩ := List.exists_of_findSome?_eq_some first
    rw [Decimal.value_strip]
    exact Interval.holds_of_ofWidth (den_pos s e) width
  case h_2 none =>
    rw [List.findSome?_eq_none_iff] at none
    rw [none 16 (by decide)] at found
    cases found

/-! ## Intervals are disjoint -/

theorem lowEnd_le (s : ℕ) (e : ℤ) : 4 * s - 2 ≤ lowEnd s e := by
  unfold lowEnd
  split <;> omega

theorem ends_of_holds {q : ℚ} (h : (Interval.ofMagnitude s e).Holds q) :
    (lowEnd s e * 2 ^ (e - 2) ≤ q ∧ q ≤ (4 * s + 2 : ℕ) * 2 ^ (e - 2)) ∧
      (s % 2 = 1 → lowEnd s e * 2 ^ (e - 2) < q ∧ q < (4 * s + 2 : ℕ) * 2 ^ (e - 2)) := by
  have closed : (Interval.ofMagnitude s e).closed = decide (s % 2 = 0) := rfl
  unfold Interval.Holds at h
  rw [low_eq, high_eq, closed] at h
  by_cases even : s % 2 = 0
  · rw [if_pos (decide_eq_true even)] at h
    exact ⟨h, fun odd => by omega⟩
  · rw [if_neg (by rwa [decide_eq_true_eq])] at h
    exact ⟨⟨h.1.le, h.2.le⟩, fun _ => h⟩

/-- The interval of a greater double starts, in quarters of the lesser one's unit, past the end of
the interval of that one, or where it ends; but then the lesser one is odd or the unit is the
same and one of the two is odd. -/
theorem end_le_start (h : Canonical s e) (h' : Canonical t f) (before : e < f ∨ e = f ∧ s < t) :
    ∃ n : ℕ, (lowEnd t f : ℚ) * 2 ^ (f - 2) = n * 2 ^ (e - 2) ∧
      (4 * s + 2 < n ∨ 4 * s + 2 = n ∧ (s % 2 = 1 ∨ t % 2 = 1)) := by
  obtain above | ⟨rfl, below⟩ := before
  · obtain ⟨j, rfl⟩ : ∃ j : ℕ, f = e + 1 + j := ⟨(f - e - 1).toNat, by omega⟩
    refine ⟨lowEnd t (e + 1 + j) * (2 * 2 ^ j), ?_, ?_⟩
    · have power : e + 1 + j - 2 = 1 + j + (e - 2) := by ring
      rw [power, zpow_add₀ (by norm_num), zpow_add₀ (by norm_num), zpow_one, zpow_natCast]
      push_cast
      ring
    · have least : 4 * Binary64.hiddenBit - 1 ≤ lowEnd t (e + 1 + j) := by
        have full := h'.full
        have low := h.low
        unfold lowEnd
        unfold Binary64.hiddenBit at full ⊢
        split <;> omega
      have start : (4 * Binary64.hiddenBit - 1) * 2 ≤ lowEnd t (e + 1 + j) * (2 * 2 ^ j) :=
        Nat.mul_le_mul least (Nat.le_mul_of_pos_right 2 (Nat.two_pow_pos j))
      have bounded := h.bounded
      unfold Binary64.hiddenBit at start bounded
      omega
  · refine ⟨lowEnd t e, rfl, ?_⟩
    have := lowEnd_le t e
    omega

theorem not_holds_of_before (h : Canonical s e) (h' : Canonical t f)
    (before : e < f ∨ e = f ∧ s < t) {q : ℚ} (hq : (Interval.ofMagnitude s e).Holds q) :
    ¬ (Interval.ofMagnitude t f).Holds q := by
  intro hq'
  have unit : (0 : ℚ) < 2 ^ (e - 2) := by positivity
  obtain ⟨n, scaled, apart⟩ := end_le_start h h' before
  obtain ⟨⟨-, under⟩, below⟩ := ends_of_holds hq
  obtain ⟨⟨past, -⟩, above⟩ := ends_of_holds hq'
  rw [scaled] at past above
  obtain gap | ⟨meet, odd | odd⟩ := apart
  · have order : ((4 * s + 2 : ℕ) : ℚ) * 2 ^ (e - 2) < n * 2 ^ (e - 2) :=
      mul_lt_mul_of_pos_right (Nat.cast_lt.mpr gap) unit
    linarith
  · rw [meet] at below
    linarith [(below odd).2]
  · rw [meet] at under
    linarith [(above odd).1]

/-- What reads back as a double reads back as no other. -/
theorem eq_of_holds (h : Canonical s e) (h' : Canonical t f) {q : ℚ}
    (hq : (Interval.ofMagnitude s e).Holds q) (hq' : (Interval.ofMagnitude t f).Holds q) :
    s = t ∧ e = f := by
  by_contra other
  obtain before | after : (e < f ∨ e = f ∧ s < t) ∨ (f < e ∨ f = e ∧ t < s) := by omega
  · exact not_holds_of_before h h' before hq hq'
  · exact not_holds_of_before h' h after hq' hq

/-! ## The digits of a double -/

open Binary64 in
theorem canonical_magnitude {x : Float} (finite : x.isFinite = true)
    (nonzero : (magnitude x).1 ≠ 0) : Canonical (magnitude x).1 (magnitude x).2 := by
  have small := fraction_lt x
  have bound := biased_lt x
  have number := (isFinite_iff x).mp finite
  rw [magnitude_eq] at nonzero ⊢
  split
  case isTrue subnormal =>
    rw [if_pos subnormal] at nonzero
    have high : minExponent ≤ 971 := by decide
    exact ⟨Nat.pos_of_ne_zero nonzero, by dsimp only; omega, le_rfl, high, .inl rfl⟩
  case isFalse normal =>
    have bottom : minExponent = -1074 := rfl
    refine ⟨?_, ?_, ?_, ?_, .inr ?_⟩ <;> dsimp only <;> omega

theorem magnitude_of_eq_zero {x : Float} (zero : (Binary64.magnitude x).1 = 0) :
    Binary64.magnitude x = (0, Binary64.minExponent) := by
  rw [Binary64.magnitude_eq] at zero ⊢
  split at zero
  case isTrue subnormal =>
    dsimp only at zero
    rw [if_pos subnormal, zero]
  case isFalse =>
    unfold Binary64.hiddenBit at zero
    omega

theorem value_ofFloat_of_eq_zero {x : Float} (zero : (Binary64.magnitude x).1 = 0) (tie : Tie) :
    (ofFloat tie x).value = 0 := by
  unfold ofFloat
  rw [magnitude_of_eq_zero zero]
  exact zero_mul _

theorem holds_ofFloat {x : Float} (finite : x.isFinite = true)
    (nonzero : (Binary64.magnitude x).1 ≠ 0) (tie : Tie) :
    (Interval.ofMagnitude (Binary64.magnitude x).1 (Binary64.magnitude x).2).Holds
      (ofFloat tie x).value := by
  have holds := holds_ofMagnitude (canonical_magnitude finite nonzero) tie
  unfold ofFloat
  split
  case h_1 zero =>
    rw [zero] at nonzero
    exact absurd rfl nonzero
  case h_2 made =>
    rw [made] at holds ⊢
    exact holds

theorem pos_of_holds (h : Canonical s e) {q : ℚ} (hq : (Interval.ofMagnitude s e).Holds q) :
    0 < q := by
  have positive := h.positive
  have low := lowEnd_le s e
  have start : (0 : ℚ) < lowEnd s e * 2 ^ (e - 2) := by
    apply mul_pos _ (by positivity)
    exact_mod_cast (show 0 < lowEnd s e by omega)
  exact start.trans_le (ends_of_holds hq).1.1

/-- The shortest digits of a finite double determine its magnitude. -/
theorem magnitude_eq_of_value_eq {x y : Float} (hx : x.isFinite = true) (hy : y.isFinite = true)
    {tie : Tie} (h : (ofFloat tie x).value = (ofFloat tie y).value) :
    Binary64.magnitude x = Binary64.magnitude y := by
  have zero_iff {x : Float} (finite : x.isFinite = true) :
      (Binary64.magnitude x).1 = 0 ↔ (ofFloat tie x).value = 0 := by
    refine ⟨fun zero => value_ofFloat_of_eq_zero zero tie, fun zero => ?_⟩
    by_contra nonzero
    have holds := holds_ofFloat finite nonzero tie
    exact (pos_of_holds (canonical_magnitude finite nonzero) holds).ne' zero
  by_cases zero : (Binary64.magnitude x).1 = 0
  · have zero' : (Binary64.magnitude y).1 = 0 := by
      rwa [zero_iff hy, ← h, ← zero_iff hx]
    rw [magnitude_of_eq_zero zero, magnitude_of_eq_zero zero']
  · have nonzero : ¬ (Binary64.magnitude y).1 = 0 := by
      rwa [zero_iff hy, ← h, ← zero_iff hx]
    have holds := holds_ofFloat hx zero tie
    rw [h] at holds
    obtain ⟨significand, exponent⟩ := eq_of_holds (canonical_magnitude hx zero)
      (canonical_magnitude hy nonzero) holds (holds_ofFloat hy nonzero tie)
    exact Prod.ext significand exponent

end Shortest

end Influence
