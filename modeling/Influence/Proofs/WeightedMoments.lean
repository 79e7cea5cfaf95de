import Mathlib.Algebra.BigOperators.Ring.List
import Mathlib.Algebra.Order.BigOperators.Group.List
import Mathlib.Data.Set.Finite.List
import Mathlib.Order.Bounds.Basic
import Mathlib.Tactic.FieldSimp
import Influence.Number.Moments
import Influence.Proofs.RealScalars

/-!
# Moments of weighted values

In real arithmetic the moments of points are those of the distribution that their weights are in
proportion to (`ofPoints_lift`).  All of them are expectations, and expectations are ratios of
weighted sums.  So what does to the weighted sum of every function the same as to the total weight
does nothing to the moments (`Reweighs.ofReals_eq`), and an increasing affine map of the values
changes the mean, the variance and the deviation alone (`ofReals_inUnits`).
-/

namespace Influence.Moments

open Extended (finite)
open RealScalar

/-- Points as scalars. -/
def lift (points : List (ℝ × ℝ)) : List (RealScalar × RealScalar) :=
  points.map fun p => (finite p.1, finite p.2)

/-- The sum of the weights. -/
def weightOf (points : List (ℝ × ℝ)) : ℝ := (points.map (·.2)).sum

/-- The weighted sum of a function of the values. -/
def weigh (points : List (ℝ × ℝ)) (f : ℝ → ℝ) : ℝ := (points.map fun p => p.2 * f p.1).sum

/-- The expectation of a function of the values, in proportion to the weights. -/
noncomputable def expectation (points : List (ℝ × ℝ)) (f : ℝ → ℝ) : ℝ :=
  weigh points f / weightOf points

/-- The expectation of a power of the distance from the mean. -/
noncomputable def central (points : List (ℝ × ℝ)) (n : ℕ) : ℝ :=
  expectation points fun v => (v - expectation points id) ^ n

/-- The moments of the distribution; without spread there are no standardized ones. -/
noncomputable def ofReals (points : List (ℝ × ℝ)) : Moments ℝ where
  totalWeight := weightOf points
  mean := expectation points id
  variance := central points 2
  stdDev := √(central points 2)
  skewness :=
    if 0 < central points 2 then central points 3 / (central points 2 * √(central points 2)) else 0
  excessKurtosis := if 0 < central points 2 then central points 4 / central points 2 ^ 2 - 3 else 0

/-- Moments as scalars. -/
def lifted (m : Moments ℝ) : Moments RealScalar :=
  ⟨finite m.totalWeight, finite m.mean, finite m.variance, finite m.stdDev, finite m.skewness,
    finite m.excessKurtosis⟩

/-- No weight is negative, and some weight is positive. -/
structure Weighted (points : List (ℝ × ℝ)) : Prop where
  nonneg : ∀ p ∈ points, 0 ≤ p.2
  pos : 0 < weightOf points

/-- The values that have positive weight. -/
def support (points : List (ℝ × ℝ)) : Set ℝ := {v | ∃ w, 0 < w ∧ (v, w) ∈ points}

variable {points points' : List (ℝ × ℝ)} {f g : ℝ → ℝ}

/-! ## Expectations -/

theorem weigh_one (points : List (ℝ × ℝ)) : weigh points (fun _ => 1) = weightOf points := by
  simp only [weigh, weightOf, mul_one]

theorem weigh_affine (a b : ℝ) (f : ℝ → ℝ) :
    weigh points (fun v => a * f v + b) = a * weigh points f + b * weightOf points := by
  simp only [weigh, weightOf, mul_add, mul_left_comm _ a, mul_comm _ b, List.sum_map_add,
    List.sum_map_mul_left]

theorem weigh_add (f g : ℝ → ℝ) :
    weigh points (fun v => f v + g v) = weigh points f + weigh points g := by
  simp only [weigh, mul_add, List.sum_map_add]

theorem expectation_add (f g : ℝ → ℝ) :
    expectation points (fun v => f v + g v) = expectation points f + expectation points g := by
  rw [expectation, weigh_add, add_div, expectation, expectation]

namespace Weighted

variable (h : Weighted points)

include h

theorem expectation_affine (a b : ℝ) (f : ℝ → ℝ) :
    expectation points (fun v => a * f v + b) = a * expectation points f + b := by
  rw [expectation, weigh_affine, add_div, mul_div_assoc, mul_div_assoc, div_self h.pos.ne', mul_one,
    expectation]

/-- The values without weight play no part. -/
theorem weigh_mono (le : ∀ v ∈ support points, f v ≤ g v) : weigh points f ≤ weigh points g := by
  refine List.sum_le_sum fun p hp => ?_
  rcases (h.nonneg p hp).eq_or_lt with none | some
  · rw [← none, zero_mul, zero_mul]
  · exact mul_le_mul_of_nonneg_left (le p.1 ⟨p.2, some, hp⟩) some.le

theorem expectation_mono (le : ∀ v ∈ support points, f v ≤ g v) :
    expectation points f ≤ expectation points g :=
  div_le_div_of_nonneg_right (h.weigh_mono le) h.pos.le

theorem expectation_const (b : ℝ) : expectation points (fun _ => b) = b := by
  have affine := h.expectation_affine 0 b id
  simpa using affine

theorem central_nonneg {n : ℕ} (even : Even n) : 0 ≤ central points n := by
  have mono := h.expectation_mono (f := fun _ => 0)
    (g := fun v => (v - expectation points id) ^ n) fun v _ => even.pow_nonneg _
  rwa [h.expectation_const] at mono

/-! ## Mean and variance -/

/-- The mean is between any bounds of the values that have weight. -/
theorem mean_between {low high : ℝ} (bounds : ∀ v ∈ support points, low ≤ v ∧ v ≤ high) :
    low ≤ expectation points id ∧ expectation points id ≤ high := by
  have below := h.expectation_mono (f := fun _ => low) (g := id) fun v hv => (bounds v hv).1
  have above := h.expectation_mono (f := id) (g := fun _ => high) fun v hv => (bounds v hv).2
  rw [h.expectation_const] at below above
  exact ⟨below, above⟩

theorem nonempty_support : (support points).Nonempty := by
  by_contra none
  have empty : ∀ v ∈ support points, (1 : ℝ) ≤ 0 := fun v hv => absurd ⟨v, hv⟩ none
  have mono := h.expectation_mono (f := fun _ => 1) (g := fun _ => 0) empty
  rw [h.expectation_const, h.expectation_const] at mono
  exact absurd mono (by norm_num)

omit h in
theorem finite_support : (support points).Finite := by
  refine (points.map (·.1)).finite_toSet.subset ?_
  rintro v ⟨w, -, mem⟩
  exact List.mem_map_of_mem (f := (·.1)) mem

/-- The mean is between the least and the greatest of the values that have weight. -/
theorem exists_extremes : ∃ low high, IsLeast (support points) low ∧
    IsGreatest (support points) high ∧ low ≤ expectation points id ∧
      expectation points id ≤ high := by
  obtain ⟨low, hlow, least⟩ :=
    Set.exists_min_image _ id finite_support h.nonempty_support
  obtain ⟨high, hhigh, greatest⟩ :=
    Set.exists_max_image _ id finite_support h.nonempty_support
  exact ⟨low, high, ⟨hlow, least⟩, ⟨hhigh, greatest⟩,
    h.mean_between fun v hv => ⟨least v hv, greatest v hv⟩⟩

theorem variance_eq :
    central points 2 = expectation points (· ^ 2) - expectation points id ^ 2 := by
  set mean := expectation points id with made
  have expanded : (fun v : ℝ => (v - mean) ^ 2) =
      fun v => v ^ 2 + (-(2 * mean) * id v + mean ^ 2) := by
    funext v
    simp only [id]
    ring
  rw [central, ← made, expanded, expectation_add, h.expectation_affine, ← made]
  ring

/-- There is no spread exactly if all values that have weight are the same. -/
theorem variance_eq_zero_iff : central points 2 = 0 ↔ (support points).Subsingleton := by
  constructor
  case mp =>
    intro none
    have sum : weigh points (fun v => (v - expectation points id) ^ 2) = 0 :=
      (div_eq_zero_iff.mp none).resolve_right h.pos.ne'
    have nonneg : ∀ x ∈ points.map fun p => p.2 * (p.1 - expectation points id) ^ 2, 0 ≤ x :=
      List.forall_mem_map.mpr fun p hp => mul_nonneg (h.nonneg p hp) (sq_nonneg _)
    have at_mean : ∀ v ∈ support points, v = expectation points id := by
      rintro v ⟨w, pos, mem⟩
      have zero := List.all_zero_of_le_zero_le_of_sum_eq_zero nonneg sum (List.mem_map_of_mem mem)
      exact sub_eq_zero.mp (sq_eq_zero_iff.mp ((mul_eq_zero.mp zero).resolve_left pos.ne'))
    exact fun v hv v' hv' => (at_mean v hv).trans (at_mean v' hv').symm
  case mpr =>
    intro one
    obtain ⟨v, hv⟩ := h.nonempty_support
    obtain ⟨low, high⟩ := h.mean_between fun v' hv' => ⟨(one hv hv').le, (one hv' hv).le⟩
    have mean : expectation points id = v := le_antisymm high low
    have mono := h.expectation_mono (f := fun v => (v - expectation points id) ^ 2)
      (g := fun _ => 0) fun v' hv' => by rw [mean, one hv' hv, sub_self, zero_pow two_ne_zero]
    rw [h.expectation_const] at mono
    exact le_antisymm mono (h.central_nonneg even_two)

end Weighted

/-! ## What the program computes -/

theorem total_lift (term : ℝ → ℝ → ℝ) (scalarTerm : RealScalar → RealScalar → RealScalar)
    (same : ∀ v w, scalarTerm (.finite v) (.finite w) = .finite (term v w)) :
    Mass.total ((lift points).map fun (v, w) => scalarTerm v w) =
      .finite (points.map fun p => term p.1 p.2).sum := by
  rw [← total_map_finite, lift, List.map_map, List.map_map]
  exact congrArg Mass.total (List.map_congr_left fun p _ => same p.1 p.2)

theorem meanOf_lift (pos : 0 < weightOf points)
    {scalarTerm : RealScalar → RealScalar → RealScalar}
    (same : ∀ v w, scalarTerm (.finite v) (.finite w) = .finite (w * f v)) :
    meanOf (.finite (weightOf points)) (lift points) scalarTerm =
      .finite (expectation points f) := by
  rw [meanOf, total_lift (fun v w => w * f v) scalarTerm same, finite_div _ pos.ne']
  rfl

theorem any_refused_iff : ((lift points).any fun (v, w) =>
    !Scalar.isFinite w || decide (w < 0) || !Scalar.isFinite v) = true ↔
      ¬ ∀ p ∈ points, 0 ≤ p.2 := by
  simp [lift, zero_eq_finite]

theorem total_weights :
    Mass.total ((lift points).map (·.2)) = .finite (weightOf points) :=
  total_lift (fun _ w => w) (fun _ w => w) fun _ _ => rfl

/-- Without a weight, or with a negative one, there are no moments. -/
theorem ofPoints_lift_eq_none (h : ¬ Weighted points) : ofPoints (lift points) = none := by
  unfold ofPoints
  by_cases nonneg : ∀ p ∈ points, 0 ≤ p.2
  · have light : (finite (weightOf points) : RealScalar) ≤ 0 :=
      not_lt.mp fun pos => h ⟨nonneg, pos⟩
    rw [if_neg fun refused => any_refused_iff.mp refused nonneg, total_weights]
    exact if_pos light
  · exact if_pos (any_refused_iff.mpr nonneg)

/-- The moments are those of the distribution. -/
theorem ofPoints_lift (h : Weighted points) :
    ofPoints (lift points) = some (ofReals points).lifted := by
  have mean : meanOf (.finite (weightOf points)) (lift points) (fun v w => v * w) =
      .finite (expectation points id) := meanOf_lift h.pos fun v w => congrArg _ (mul_comm v w)
  set μ := expectation points id with made
  have second : meanOf (.finite (weightOf points)) (lift points)
      (fun v w => w * ((v - finite μ) * (v - finite μ))) = .finite (central points 2) :=
    meanOf_lift h.pos fun v w => by simp only [finite_sub, finite_mul]; congr 1; ring
  have third : meanOf (.finite (weightOf points)) (lift points)
      (fun v w => w * ((v - finite μ) * (v - finite μ)) * (v - finite μ)) =
        .finite (central points 3) :=
    meanOf_lift h.pos fun v w => by simp only [finite_sub, finite_mul]; congr 1; ring
  have fourth : meanOf (.finite (weightOf points)) (lift points)
      (fun v w => w * ((v - finite μ) * (v - finite μ)) * ((v - finite μ) * (v - finite μ))) =
        .finite (central points 4) :=
    meanOf_lift h.pos fun v w => by simp only [finite_sub, finite_mul]; congr 1; ring
  have spread := h.central_nonneg even_two
  unfold ofPoints
  rw [if_neg fun refused => any_refused_iff.mp refused h.nonneg, total_weights]
  simp only [mean, second, third, fourth, zero_eq_finite, larger_finite, max_eq_left spread,
    sqrt_finite spread, finite_le, finite_lt, finite_mul, three_eq_finite, if_neg h.pos.not_ge]
  by_cases pos : 0 < central points 2
  · have root := Real.sqrt_pos.mpr pos
    rw [if_pos pos, finite_div _ (mul_pos pos root).ne', finite_div _ (mul_pos pos pos).ne',
      finite_sub]
    simp only [ofReals, lifted, if_pos pos, pow_two]
    rfl
  · rw [if_neg pos]
    simp only [ofReals, lifted, if_neg pos]
    rfl

theorem ofPoints_lift_isSome_iff : (ofPoints (lift points)).isSome ↔ Weighted points := by
  by_cases h : Weighted points
  · simp [ofPoints_lift h, h]
  · simp [ofPoints_lift_eq_none h, h]

/-! ## What leaves the moments as they are -/

/-- The second points weigh every function as much as the first, up to a positive factor. -/
structure Reweighs (c : ℝ) (points points' : List (ℝ × ℝ)) : Prop where
  pos : 0 < c
  weigh : ∀ f, weigh points' f = c * weigh points f
  nonneg : (∀ p ∈ points', 0 ≤ p.2) ↔ ∀ p ∈ points, 0 ≤ p.2

theorem reweighs_perm (same : points.Perm points') : Reweighs 1 points points' where
  pos := one_pos
  weigh f := by rw [weigh, weigh, one_mul, (same.map _).sum_eq]
  nonneg := forall_congr' fun _ => imp_congr_left same.mem_iff.symm

theorem reweighs_scale {c : ℝ} (pos : 0 < c) (points : List (ℝ × ℝ)) :
    Reweighs c points (points.map fun p => (p.1, c * p.2)) where
  pos := pos
  weigh f := by
    simp only [weigh, List.map_map, Function.comp_def, mul_assoc, List.sum_map_mul_left]
  nonneg := by
    rw [List.forall_mem_map]
    exact forall₂_congr fun _ _ => mul_nonneg_iff_of_pos_left pos

/-- A point and the points with its value that its weight is split among. -/
theorem reweighs_split (front back : List (ℝ × ℝ)) (v : ℝ) {parts : List ℝ}
    (split : 0 ≤ parts.sum → ∀ w ∈ parts, 0 ≤ w) :
    Reweighs 1 (front ++ (v, parts.sum) :: back)
      (front ++ parts.map (fun w => (v, w)) ++ back) where
  pos := one_pos
  weigh f := by
    have shared : (parts.map fun w => w * f v).sum = parts.sum * f v := by
      rw [List.sum_map_mul_right, List.map_id']
    simp only [weigh, List.map_append, List.map_cons, List.map_map, Function.comp_def,
      List.sum_append, List.sum_cons, shared, one_mul, add_assoc]
  nonneg := by
    have both : (∀ w ∈ parts, 0 ≤ w) ↔ 0 ≤ parts.sum := ⟨List.sum_nonneg, split⟩
    simp only [List.forall_mem_append, List.forall_mem_cons, List.forall_mem_map, both, and_assoc]

namespace Reweighs

variable {c : ℝ} (h : Reweighs c points points')

include h

theorem weightOf_eq : weightOf points' = c * weightOf points := by
  rw [← weigh_one, ← weigh_one, h.weigh]

theorem expectation_eq : expectation points' = expectation points := by
  funext f
  rw [expectation, h.weigh, h.weightOf_eq, mul_div_mul_left _ _ h.pos.ne', expectation]

theorem weighted_iff : Weighted points' ↔ Weighted points := by
  have total : 0 < weightOf points' ↔ 0 < weightOf points := by
    rw [h.weightOf_eq, mul_pos_iff_of_pos_left h.pos]
  exact ⟨fun w => ⟨h.nonneg.mp w.nonneg, total.mp w.pos⟩,
    fun w => ⟨h.nonneg.mpr w.nonneg, total.mpr w.pos⟩⟩

theorem central_eq : central points' = central points := by
  funext n
  rw [central, h.expectation_eq, central]

theorem ofReals_eq :
    ofReals points' = { ofReals points with totalWeight := c * weightOf points } := by
  rw [ofReals, h.central_eq, h.expectation_eq, h.weightOf_eq]
  rfl

/-- Only the total weight changes. -/
theorem ofPoints_lift_eq : ofPoints (lift points') =
    (ofPoints (lift points)).map fun m =>
      { m with totalWeight := finite c * m.totalWeight } := by
  by_cases weighted : Weighted points
  · rw [ofPoints_lift weighted, ofPoints_lift (h.weighted_iff.mpr weighted), h.ofReals_eq]
    rfl
  · rw [ofPoints_lift_eq_none weighted,
      ofPoints_lift_eq_none fun weighted' => weighted (h.weighted_iff.mp weighted')]
    rfl

omit h in
theorem ofPoints_lift_eq_of_one (h : Reweighs 1 points points') :
    ofPoints (lift points') = ofPoints (lift points) := by
  by_cases weighted : Weighted points
  · rw [h.ofPoints_lift_eq, ofPoints_lift weighted, Option.map_some, lifted, finite_mul, one_mul]
  · rw [h.ofPoints_lift_eq, ofPoints_lift_eq_none weighted, Option.map_none]

end Reweighs

/-! ## Change of units -/

/-- The points with their values in other units. -/
def inUnits (a b : ℝ) (points : List (ℝ × ℝ)) : List (ℝ × ℝ) :=
  points.map fun p => (a * p.1 + b, p.2)

section Units

variable {a b : ℝ}

theorem weigh_inUnits (f : ℝ → ℝ) :
    weigh (inUnits a b points) f = weigh points fun v => f (a * v + b) := by
  rw [weigh, inUnits, List.map_map]
  rfl

theorem weightOf_inUnits : weightOf (inUnits a b points) = weightOf points := by
  rw [← weigh_one, weigh_inUnits, weigh_one]

theorem expectation_inUnits (f : ℝ → ℝ) :
    expectation (inUnits a b points) f = expectation points fun v => f (a * v + b) := by
  rw [expectation, weigh_inUnits, weightOf_inUnits, expectation]

theorem weighted_inUnits_iff : Weighted (inUnits a b points) ↔ Weighted points := by
  have nonneg : (∀ p ∈ inUnits a b points, 0 ≤ p.2) ↔ ∀ p ∈ points, 0 ≤ p.2 :=
    List.forall_mem_map
  exact ⟨fun h => ⟨nonneg.mp h.nonneg, weightOf_inUnits ▸ h.pos⟩,
    fun h => ⟨nonneg.mpr h.nonneg, weightOf_inUnits.symm ▸ h.pos⟩⟩

theorem Weighted.mean_inUnits (h : Weighted points) :
    expectation (inUnits a b points) id = a * expectation points id + b := by
  rw [expectation_inUnits, ← h.expectation_affine]
  rfl

theorem Weighted.central_inUnits (h : Weighted points) (n : ℕ) :
    central (inUnits a b points) n = a ^ n * central points n := by
  have distances : (fun v => (a * v + b - (a * expectation points id + b)) ^ n) =
      fun v => a ^ n * (v - expectation points id) ^ n + 0 := by
    funext v
    rw [add_sub_add_right_eq_sub, ← mul_sub, mul_pow, add_zero]
  rw [central, h.mean_inUnits, expectation_inUnits, distances, h.expectation_affine, add_zero,
    central]

theorem ofReals_inUnits (h : Weighted points) (pos : 0 < a) :
    ofReals (inUnits a b points) =
      { ofReals points with
        mean := a * (ofReals points).mean + b
        variance := a ^ 2 * (ofReals points).variance
        stdDev := a * (ofReals points).stdDev } := by
  have root : √(a ^ 2 * central points 2) = a * √(central points 2) := by
    rw [Real.sqrt_mul (sq_nonneg a), Real.sqrt_sq pos.le]
  have third : a ^ 3 * central points 3 /
      (a ^ 2 * central points 2 * (a * √(central points 2))) =
        central points 3 / (central points 2 * √(central points 2)) := by
    rw [show a ^ 2 * central points 2 * (a * √(central points 2)) =
      a ^ 3 * (central points 2 * √(central points 2)) by ring,
      mul_div_mul_left _ _ (pow_pos pos 3).ne']
  have fourth : a ^ 4 * central points 4 / (a ^ 2 * central points 2) ^ 2 =
      central points 4 / central points 2 ^ 2 := by
    rw [mul_pow, ← pow_mul, mul_div_mul_left _ _ (pow_pos pos 4).ne']
  simp only [ofReals, h.mean_inUnits, h.central_inUnits, weightOf_inUnits, root, third, fourth,
    mul_pos_iff_of_pos_left (pow_pos pos 2)]

theorem ofPoints_lift_inUnits (pos : 0 < a) : ofPoints (lift (inUnits a b points)) =
    (ofPoints (lift points)).map fun m =>
      { m with
        mean := finite a * m.mean + finite b
        variance := finite (a ^ 2) * m.variance
        stdDev := finite a * m.stdDev } := by
  by_cases h : Weighted points
  · rw [ofPoints_lift h, ofPoints_lift (weighted_inUnits_iff.mpr h), ofReals_inUnits h pos]
    rfl
  · rw [ofPoints_lift_eq_none h, ofPoints_lift_eq_none fun h' => h (weighted_inUnits_iff.mp h')]
    rfl

end Units

/-! ## The moments of the distribution -/

/-- In real arithmetic there are moments exactly of points whose weights are not negative and sum to
something positive.  They are those of the distribution: the mean is between the least and the
greatest value with weight, the variance is the mean of the squares less the square of the mean, and
it is zero exactly where all values with weight are the same.  Neither the order of the points nor
the scale of the weights nor how the weight of a value is split matters, and in other units the
mean, the variance and the deviation change as those of a distribution do, the rest not at all. -/
theorem ofPoints_distribution (points : List (ℝ × ℝ)) :
    ((ofPoints (lift points)).isSome ↔ (∀ p ∈ points, 0 ≤ p.2) ∧ 0 < weightOf points) ∧
    (∀ m, ofPoints (lift points) = some m → m = (ofReals points).lifted ∧
      (∃ low high, IsLeast (support points) low ∧ IsGreatest (support points) high ∧
        low ≤ (ofReals points).mean ∧ (ofReals points).mean ≤ high) ∧
      (ofReals points).variance = expectation points (· ^ 2) - (ofReals points).mean ^ 2 ∧
      ((ofReals points).variance = 0 ↔ (support points).Subsingleton)) ∧
    (∀ points', points.Perm points' → ofPoints (lift points') = ofPoints (lift points)) ∧
    (∀ c, 0 < c → ofPoints (lift (points.map fun p => (p.1, c * p.2))) =
      (ofPoints (lift points)).map fun m =>
        { m with totalWeight := finite c * m.totalWeight }) ∧
    (∀ front v (parts : List ℝ) back, points = front ++ (v, parts.sum) :: back →
      (0 ≤ parts.sum → ∀ w ∈ parts, 0 ≤ w) →
        ofPoints (lift (front ++ parts.map (fun w => (v, w)) ++ back)) =
          ofPoints (lift points)) ∧
    (∀ a b, 0 < a → ofPoints (lift (points.map fun p => (a * p.1 + b, p.2))) =
      (ofPoints (lift points)).map fun m =>
        { m with
          mean := finite a * m.mean + finite b
          variance := finite (a ^ 2) * m.variance
          stdDev := finite a * m.stdDev }) := by
  refine ⟨?some, ?values, ?perm, ?scale, ?split, ?units⟩
  case some =>
    exact ofPoints_lift_isSome_iff.trans ⟨fun h => ⟨h.nonneg, h.pos⟩, fun h => ⟨h.1, h.2⟩⟩
  case values =>
    intro m made
    have h : Weighted points := ofPoints_lift_isSome_iff.mp (Option.isSome_of_eq_some made)
    exact ⟨Option.some.inj (made.symm.trans (ofPoints_lift h)), h.exists_extremes, h.variance_eq,
      h.variance_eq_zero_iff⟩
  case perm => exact fun _ same => (reweighs_perm same).ofPoints_lift_eq_of_one
  case scale => exact fun _ pos => (reweighs_scale pos points).ofPoints_lift_eq
  case split =>
    rintro front v parts back rfl split
    exact (reweighs_split front back v split).ofPoints_lift_eq_of_one
  case units => exact fun _ _ pos => ofPoints_lift_inUnits pos

/-- The moments of a wager that pays 15 or 35, also in another order, with other weights, with one
weight in parts and in other units. -/
theorem ofPoints_distribution_wager :
    (∃ m, ofPoints (lift [(15, 1), (35, 4)]) = some m ∧ m.mean = finite 31 ∧
      m.variance = finite 64) ∧
    ofPoints (lift [(35, 4), (15, 1)]) = ofPoints (lift [(15, 1), (35, 4)]) ∧
    ofPoints (lift [(15, 1), (35, 1), (35, 3)]) = ofPoints (lift [(15, 1), (35, 4)]) ∧
    (ofPoints (lift [(15, 2), (35, 8)])).map (·.mean) =
      (ofPoints (lift [(15, 1), (35, 4)])).map (·.mean) ∧
    (ofPoints (lift [(25, 1), (65, 4)])).map (·.skewness) =
      (ofPoints (lift [(15, 1), (35, 4)])).map (·.skewness) := by
  obtain ⟨some, values, perm, scale, split, units⟩ := ofPoints_distribution [(15, 1), (35, 4)]
  have positive := some.mpr ⟨by simp, by norm_num [weightOf]⟩
  obtain ⟨m, made⟩ := Option.isSome_iff_exists.mp positive
  obtain ⟨rfl, -, spread, -⟩ := values m made
  have mean : (ofReals [(15, 1), (35, 4)]).mean = 31 := by
    norm_num [ofReals, expectation, weigh, weightOf]
  have squares : expectation [(15, 1), (35, 4)] (· ^ 2) = 1025 := by
    norm_num [expectation, weigh, weightOf]
  rw [mean, squares] at spread
  have scaled := scale 2 two_pos
  have parts := split [(15, 1)] 35 [1, 3] [] (by norm_num) (by norm_num)
  have inUnits := units 2 (-5) two_pos
  norm_num at scaled parts inUnits spread
  refine ⟨⟨_, made, congrArg finite mean, congrArg finite spread⟩, perm _ (.swap ..), parts, ?_, ?_⟩
  · rw [scaled, Option.map_map]
    rfl
  · rw [inUnits, Option.map_map]
    rfl

end Influence.Moments
