import Mathlib.Algebra.Order.Field.Basic
import Influence.Proofs.Listing

/-!
# Binned distributions

Rounding the utilities of a distribution to a number of decimals moves each to the nearest multiple
of a width, keeps the mass, moves the mean by no more than half the width, and does nothing the
second time (`withPrecision_spec`).  The number of decimals is read as a signed word, so from
`2 ^ 31` on the width is a positive power of ten (`width_eq_iff`).
-/

namespace Influence

open Extended

namespace Distribution

/-! ## Rounding -/

/-- A number is rounded to a multiple of a width: one of the nearest, and of two the one further from
zero. -/
structure IsNearest (width u b : ℚ) : Prop where
  multiple : ∃ n : ℤ, b = n * width
  near : |b - u| ≤ width / 2
  away : |b - u| = width / 2 → |u| < |b|

theorem IsNearest.neg {width u b : ℚ} (h : IsNearest width u b) : IsNearest width (-u) (-b) := by
  have distance : |-b - -u| = |b - u| := by rw [← neg_sub', abs_neg]
  obtain ⟨n, rfl⟩ := h.multiple
  refine ⟨⟨-n, by push_cast; ring⟩, distance.trans_le h.near, fun tie => ?_⟩
  rw [abs_neg, abs_neg]
  exact h.away (distance.symm.trans tie)

theorem isNearest_nearest (x : ℚ) : IsNearest 1 x (nearest x) := by
  have upward {x : ℚ} (hx : 0 ≤ x) : IsNearest 1 x (nearest x) := by
    have below := Int.floor_le (x + 1 / 2)
    have above := Int.lt_floor_add_one (x + 1 / 2)
    rw [nearest_of_nonneg hx]
    refine ⟨⟨_, (mul_one _).symm⟩, abs_le.mpr ⟨by linarith, by linarith⟩, fun tie => ?_⟩
    -- A tie goes up: the floor of what lies half above is above.
    have up : x < (⌊x + 1 / 2⌋ : ℤ) := by
      rcases abs_eq (by norm_num) |>.mp tie with up | down
      · linarith
      · linarith
    rw [abs_of_nonneg hx, abs_of_pos (hx.trans_lt up)]
    exact up
  rcases le_total 0 x with nonneg | nonpos
  · exact upward nonneg
  · have := (upward (neg_nonneg.mpr nonpos)).neg
    rwa [nearest_neg, neg_neg, neg_neg] at this

/-- A utility rounded to a multiple of a width. -/
def bin (width u : ℚ) : ℚ := nearest (u / width) * width

theorem isNearest_bin {width : ℚ} (positive : 0 < width) (u : ℚ) :
    IsNearest width u (bin width u) := by
  obtain ⟨⟨n, whole⟩, near, away⟩ := isNearest_nearest (u / width)
  have scaled : bin width u - u = (nearest (u / width) - u / width) * width := by
    rw [bin, sub_mul, div_mul_cancel₀ u positive.ne']
  have distance : |bin width u - u| = |nearest (u / width) - u / width| * width := by
    rw [scaled, abs_mul, abs_of_pos positive]
  have half : width / 2 = 1 / 2 * width := by ring
  refine ⟨⟨n, by rw [bin, whole, mul_one]⟩, ?_, fun tie => ?_⟩
  · rw [distance, half]
    exact mul_le_mul_of_nonneg_right near positive.le
  · rw [distance, half] at tie
    have further := away (mul_right_cancel₀ positive.ne' tie)
    rw [abs_div, abs_of_pos positive, div_lt_iff₀ positive] at further
    rwa [bin, abs_mul, abs_of_pos positive]

theorem bin_bin {width : ℚ} (positive : 0 < width) (u : ℚ) :
    bin width (bin width u) = bin width u := by
  obtain ⟨n, whole⟩ := (isNearest_bin positive u).multiple
  rw [whole, bin, mul_div_cancel_right₀ _ positive.ne', nearest_intCast]

/-! ## The width -/

/-- A number of decimals as the signed word that it is read as. -/
def places (decimals : ℕ) : ℤ := (decimals : ℤ).bmod (2 ^ 32)

/-- The width that utilities are rounded to. -/
def width (decimals : ℕ) : ℚ := 10 ^ (-places decimals)

theorem width_pos (decimals : ℕ) : 0 < width decimals := zpow_pos (by norm_num) _

theorem decimalFactor_eq (decimals : ℕ) :
    (decimalFactor decimals : Exact) = finite (10 ^ places decimals) := by
  have signed : (if 2 * (decimals % Word.count32) < Word.count32 then
      ((decimals % Word.count32 : ℕ) : ℤ) else (decimals % Word.count32 : ℕ) - Word.count32) =
        places decimals := by
    unfold places Int.bmod Word.count32
    push_cast
    split <;> split <;> omega
  rw [decimalFactor, signed, ofNat_eq_finite, power_finite (by norm_num), Nat.cast_ofNat]

/-- The width is the power of ten asked for as long as the word is not negative. -/
theorem width_eq_iff {decimals : ℕ} (word : decimals < 2 ^ 32) :
    width decimals = 10 ^ (-(decimals : ℤ)) ↔ decimals < 2 ^ 31 := by
  have same : width decimals = 10 ^ (-(decimals : ℤ)) ↔ places decimals = decimals := by
    rw [width, zpow_right_inj₀ (by norm_num) (by norm_num), neg_inj]
  rw [same]
  unfold places Int.bmod
  push_cast
  split <;> omega

/-! ## Binning -/

variable {given points : List (ℚ × ℚ)}

/-- Binning puts every point where its utility is rounded to. -/
theorem withPrecision_eq {x : Distribution Exact} (hx : x.points = lift points) (decimals : ℕ) :
    x.withPrecision decimals =
      ofPoints (lift (points.map fun r => (bin (width decimals) r.1, r.2))) := by
  have nonzero : (10 : ℚ) ^ places decimals ≠ 0 := zpow_ne_zero _ (by norm_num)
  have rounded (u : ℚ) : (Scalar.round (finite u * finite (10 ^ places decimals)) /
      finite (10 ^ places decimals) : Exact) = finite (bin (width decimals) u) := by
    change (finite (nearest (u * 10 ^ places decimals)) / _ : Exact) = _
    rw [finite_div _ nonzero, bin, width, zpow_neg, div_inv_eq_mul, div_eq_mul_inv]
  unfold withPrecision
  rw [decimalFactor_eq, hx]
  refine congrArg ofPoints ?_
  rw [lift, lift, List.map_map, List.map_map]
  exact List.map_congr_left fun r _ => Prod.ext (rounded r.1) rfl

/-- The mean of a distribution moves no further than its utilities. -/
theorem abs_weighted_sub_le (pos : ∀ r ∈ points, 0 < r.2) {g : ℚ → ℚ} {distance : ℚ}
    (near : ∀ u, |g u - u| ≤ distance) :
    |weigh g points - weighted points| ≤ distance * massOf points := by
  have mean : weighted points = weigh (fun u => u) points := rfl
  have up : weigh g points ≤ weigh (fun u => u + distance * 1) points :=
    weigh_le pos fun r _ => by linarith [(abs_le.mp (near r.1)).2]
  have down : weigh (fun u => u + -distance * 1) points ≤ weigh g points :=
    weigh_le pos fun r _ => by linarith [(abs_le.mp (near r.1)).1]
  rw [weigh_add, weigh_mul_left, ← massOf_eq_weigh, ← mean] at up down
  exact abs_le.mpr ⟨by linarith, by linarith⟩

/-- Means of the same mass differ by no more than the sums do for each unit of it. -/
theorem abs_mean_sub_le [Root ℚ] {x y : Distribution Exact} {others : List (ℚ × ℚ)}
    (hx : x.points = lift points) (hy : y.points = lift others) (h : IsListing points)
    (h' : IsListing others) (mass : 0 < massOf points) (same : massOf others = massOf points)
    {distance : ℚ} (near : |weighted others - weighted points| ≤ distance * massOf points) :
    ∃ m n, x.moments = .ok m ∧ y.moments = .ok n ∧
      |rational n.mean - rational m.mean| ≤ distance := by
  obtain ⟨m, run, mean⟩ := moments_eq hx h.positive mass
  obtain ⟨n, run', mean'⟩ := moments_eq hy h'.positive (same ▸ mass)
  refine ⟨m, n, run, run', ?_⟩
  rw [mean, mean', same, rational_finite, rational_finite, ← sub_div, abs_div, abs_of_pos mass]
  exact (div_le_iff₀ mass).mpr near

/-- Where every utility is rounded already, binning changes nothing. -/
theorem withPrecision_eq_self {x : Distribution Exact} {binned : List (ℚ × ℚ)}
    {decimals : ℕ} (hx : x.points = lift binned) (h : IsListing binned)
    (fixed : ∀ r ∈ binned, bin (width decimals) r.1 = r.1) : x.withPrecision decimals = x := by
  have still : binned.map (fun r => (bin (width decimals) r.1, r.2)) = binned := by
    conv_rhs => rw [← List.map_id binned]
    exact List.map_congr_left fun r hr => Prod.ext (fixed r hr) rfl
  rw [withPrecision_eq hx, still]
  exact congrArg Distribution.mk ((h.ofPoints_eq h.positive fun _ => rfl).trans hx.symm)

/-- A distribution with its utilities rounded. -/
theorem withPrecision_spec (listed : (ofPoints (lift given)).points = lift points) (decimals : ℕ) :
    ∃ binned, ((ofPoints (lift given)).withPrecision decimals).points = lift binned ∧
      IsListing binned ∧
      (∀ f, weigh f binned = weigh (fun u => f (bin (width decimals) u)) points) ∧
      (∀ u, (∃ r ∈ binned, r.1 = u) ↔ ∃ r ∈ points, bin (width decimals) r.1 = u) ∧
      massOf binned = massOf points ∧
      |weighted binned - weighted points| ≤ width decimals / 2 * massOf points ∧
      (∀ [Root ℚ], 0 < massOf points → ∃ m n, (ofPoints (lift given)).moments = .ok m ∧
        ((ofPoints (lift given)).withPrecision decimals).moments = .ok n ∧
        |rational n.mean - rational m.mean| ≤ width decimals / 2) ∧
      ((ofPoints (lift given)).withPrecision decimals).withPrecision decimals =
        (ofPoints (lift given)).withPrecision decimals ∧
      (∀ u, IsNearest (width decimals) u (bin (width decimals) u)) ∧
      (decimals < 2 ^ 32 → (width decimals = 10 ^ (-(decimals : ℤ)) ↔ decimals < 2 ^ 31)) := by
  have positive := width_pos decimals
  have h := isListing_of_ofPoints listed
  obtain ⟨binned, eq, listing, weights, utilities⟩ := h.exists_moved (bin (width decimals))
  rw [← withPrecision_eq listed] at eq
  have fixed : ∀ r ∈ binned, bin (width decimals) r.1 = r.1 := fun r hr => by
    obtain ⟨q, -, rounded⟩ := (utilities r.1).mp ⟨r, hr, rfl⟩
    rw [← rounded, bin_bin positive]
  have mass : massOf binned = massOf points := by
    rw [massOf_eq_weigh, weights, massOf_eq_weigh]
  have near : |weighted binned - weighted points| ≤ width decimals / 2 * massOf points := by
    rw [show weighted binned = weigh (fun u => u) binned from rfl, weights]
    exact abs_weighted_sub_le h.positive fun u => (isNearest_bin positive u).near
  exact ⟨binned, eq, listing, weights, utilities, mass, near,
    fun heavy => abs_mean_sub_le listed eq h listing heavy mass near,
    withPrecision_eq_self eq listing fixed, isNearest_bin positive, width_eq_iff⟩

/-- A fee that is certain. -/
def fee : List (ℚ × ℚ) := [(7, 1)]

/-- The greatest word stands for one place before the point, so a fee of seven becomes ten. -/
theorem withPrecision_spec_fee : (ofPoints (lift fee)).points = lift fee ∧
    ∃ binned, ((ofPoints (lift fee)).withPrecision 4294967295).points = lift binned ∧
      (∃ r ∈ binned, r.1 = 10) ∧ massOf binned = 1 := by
  have listing : IsListing fee := ⟨List.pairwise_singleton _ _, by decide +kernel⟩
  have listed : (ofPoints (lift fee)).points = lift fee :=
    listing.ofPoints_eq listing.positive fun _ => rfl
  obtain ⟨binned, eq, -, -, utilities, mass, -⟩ := withPrecision_spec listed 4294967295
  have tens : width 4294967295 = 10 := by decide +kernel
  have rounded : bin 10 7 = 10 := by decide +kernel
  refine ⟨listed, binned, eq, (utilities 10).mpr ⟨(7, 1), List.mem_singleton_self _, ?_⟩, ?_⟩
  · rw [tens, rounded]
  · rw [mass]
    decide +kernel

end Distribution

end Influence
