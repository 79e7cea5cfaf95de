import Mathlib.Algebra.Order.Field.Basic
import Mathlib.Order.Bounds.Basic
import Mathlib.Order.Monotone.Defs
import Mathlib.Order.Interval.Set.Defs
import Mathlib.Tactic.Choose
import Influence.Proofs.Listing

/-!
# Risk measures of a distribution

Every level between zero and one has both measures, and neither falls as the level rises.  Unless a
cumulative probability lies just below the level, within the slack of the comparison, the value at
risk is the least utility that reaches the level, and the conditional value at risk is the least mean
utility of a part of the mass of that size (`riskMeasures_spec`).

Both are read off one split of the points (`exists_valueAtRisk`): what lies below the value at risk
misses the level, and it reaches the level together with the value at risk itself.  The conditional
value falls behind the value at risk by the shortfall of the utilities below it, spread over the
level (`conditionalValueAtRisk_eq`), and a shortfall grows no faster than the mass below
(`shortfall_le`).
-/

namespace Influence

open Extended

namespace Distribution

/-! ## Mass and shortfall below a utility -/

/-- The probability of a utility below the given one. -/
def massBelow (points : List (ℚ × ℚ)) (v : ℚ) : ℚ := weigh (fun u => if u < v then 1 else 0) points

/-- The probability of a utility no greater than the given one. -/
def cumulative (points : List (ℚ × ℚ)) (v : ℚ) : ℚ := weigh (fun u => if u ≤ v then 1 else 0) points

/-- By how much utilities stay below the given one on average. -/
def shortfall (points : List (ℚ × ℚ)) (v : ℚ) : ℚ := weigh (fun u => max (v - u) 0) points

/-- What the comparison of cumulative probabilities with a level lets pass. -/
def slack : ℚ := 1 / 10 ^ 12

theorem levelSlack_eq : (levelSlack : Exact) = finite slack := by
  change (finite (1e-12 : ℚ) : Exact) = finite slack
  norm_num [slack]

theorem slack_pos : 0 < slack := by norm_num [slack]

theorem massBelow_cons (r : ℚ × ℚ) (points : List (ℚ × ℚ)) (v : ℚ) :
    massBelow (r :: points) v = (if r.1 < v then r.2 else 0) + massBelow points v := by
  rw [massBelow, weigh_cons, ite_mul, one_mul, zero_mul]
  rfl

theorem cumulative_cons (r : ℚ × ℚ) (points : List (ℚ × ℚ)) (v : ℚ) :
    cumulative (r :: points) v = (if r.1 ≤ v then r.2 else 0) + cumulative points v := by
  rw [cumulative, weigh_cons, ite_mul, one_mul, zero_mul]
  rfl

namespace IsListing

variable {points : List (ℚ × ℚ)} {r : ℚ × ℚ} {u v w : ℚ}

theorem massBelow_nonneg (h : IsListing points) : 0 ≤ massBelow points v :=
  weigh_nonneg h.positive fun u => by split <;> norm_num

theorem cumulative_nonneg (h : IsListing points) : 0 ≤ cumulative points v :=
  weigh_nonneg h.positive fun u => by split <;> norm_num

omit r u w in
theorem massBelow_eq_zero (least : ∀ q ∈ points, v ≤ q.1) : massBelow points v = 0 :=
  weigh_eq_zero fun q hq => if_neg (not_lt.mpr (least q hq))

/-- A shortfall grows no faster than the mass below. -/
theorem shortfall_le (h : IsListing points) (v w : ℚ) :
    shortfall points w ≤ shortfall points v + (w - v) * massBelow points w := by
  rw [shortfall, shortfall, massBelow, ← weigh_mul_left, ← weigh_add]
  refine weigh_le h.positive fun q _ => ?_
  split
  case isTrue below =>
    rw [mul_one, max_eq_left (sub_nonneg.mpr below.le)]
    have := le_max_left (v - q.1) 0
    linarith
  case isFalse above =>
    have high := not_lt.mp above
    rw [mul_zero, add_zero, max_eq_right (sub_nonpos.mpr high)]
    exact le_max_right _ _

theorem shortfall_nonneg (h : IsListing points) : 0 ≤ shortfall points v :=
  weigh_nonneg h.positive fun _ => le_max_right _ _

/-- The mass up to a utility is that below it and its own probability. -/
theorem cumulative_eq (h : IsListing points) (member : r ∈ points) :
    cumulative points r.1 = massBelow points r.1 + r.2 := by
  have own := ((mem_iff_weigh h.ascending h.positive).mp member).2
  rw [cumulative, massBelow, ← own, ← weigh_add]
  congr 1
  funext u
  rcases lt_trichotomy u r.1 with below | same | above
  · simp [below, below.le, below.ne]
  · simp [same]
  · simp [above.not_gt, above.not_ge, above.ne']

/-- The mass below a utility comprises the mass up to every lesser one. -/
theorem cumulative_le_massBelow (h : IsListing points) (lt : v < w) :
    cumulative points v ≤ massBelow points w := by
  refine weigh_le h.positive fun q _ => ?_
  by_cases le : q.1 ≤ v
  · rw [if_pos le, if_pos (le.trans_lt lt)]
  · rw [if_neg le]
    split <;> norm_num

theorem le_of_massBelow_eq_zero (h : IsListing points) (none : massBelow points v = 0) :
    ∀ q ∈ points, v ≤ q.1 := by
  intro q hq
  by_contra below
  have upto := h.cumulative_le_massBelow (not_le.mp below)
  rw [h.cumulative_eq hq, none] at upto
  have positive := h.positive q hq
  have nonneg : 0 ≤ massBelow points q.1 := h.massBelow_nonneg
  linarith

theorem shortfall_eq_zero (h : IsListing points) (none : massBelow points v = 0) :
    shortfall points v = 0 :=
  weigh_eq_zero fun q hq =>
    max_eq_right (sub_nonpos.mpr (h.le_of_massBelow_eq_zero none q hq))

end IsListing

/-! ## The value at risk -/

/-- The utility that splits the points at a level: what lies below it misses the level, and with it
the level is reached. -/
structure IsQuantile (points : List (ℚ × ℚ)) (alpha v : ℚ) : Prop where
  listed : ∃ p, (v, p) ∈ points
  missed : massBelow points v = 0 ∨ massBelow points v + slack < alpha
  reached : alpha ≤ cumulative points v + slack

section Level

variable {points : List (ℚ × ℚ)} {alpha beta v w : ℚ}

/-- One step of the search for a quantile. -/
private theorem quantile?_cons (alpha s : ℚ) (r : ℚ × ℚ) (points : List (ℚ × ℚ)) :
    quantile? (finite alpha) ⟨finite s, finite 0⟩ (lift (r :: points)) =
      if alpha ≤ s + r.2 + slack then some (finite r.1)
      else quantile? (finite alpha) ⟨finite (s + r.2), finite 0⟩ (lift points) := by
  change (if finite alpha ≤ ((Mass.mk (finite s) (finite 0) : Mass Exact).add (finite r.2)).value +
      levelSlack then some (finite r.1)
    else quantile? (finite alpha) ((Mass.mk (finite s) (finite 0)).add (finite r.2)) (lift points)) = _
  rw [mass_add_finite, levelSlack_eq]
  simp only [Mass.value, finite_add, add_zero, finite_le]

/-- The search stops at a utility that splits what is left of the points at what is left of the
level. -/
private theorem quantile?_eq (h : IsListing points) (nonempty : points ≠ []) {s : ℚ}
    (level : alpha ≤ s + massOf points) :
    ∃ v, quantile? (finite alpha) ⟨finite s, finite 0⟩ (lift points) = some (finite v) ∧
      IsQuantile points (alpha - s) v := by
  induction points generalizing s with
  | nil => exact absurd rfl nonempty
  | cons r points ih =>
    rw [quantile?_cons]
    by_cases reached : alpha ≤ s + r.2 + slack
    · refine ⟨r.1, if_pos reached, ⟨r.2, List.mem_cons_self⟩, .inl ?_, ?_⟩
      · exact IsListing.massBelow_eq_zero
          (List.forall_mem_cons.mpr ⟨le_rfl, fun q hq => (h.lt_of_mem q hq).le⟩)
      · have rest : 0 ≤ cumulative points r.1 := h.tail.cumulative_nonneg
        rw [cumulative_cons, if_pos le_rfl]
        linarith
    -- The first point misses the level, so the search goes on behind it with its mass taken off.
    · have mass : massOf (r :: points) = r.2 + massOf points := List.sum_cons
      have later : points ≠ [] := by
        rintro rfl
        have := slack_pos
        rw [mass, show massOf [] = 0 from rfl] at level
        linarith
      obtain ⟨v, found, ⟨p, member⟩, missed, enough⟩ :=
        ih h.tail later (s := s + r.2) (by linarith)
      have below : r.1 < v := h.lt_of_mem (v, p) member
      refine ⟨v, (if_neg reached).trans found, ⟨p, List.mem_cons_of_mem _ member⟩, .inr ?_, ?_⟩
      · rw [massBelow_cons, if_pos below]
        rcases missed with none | missed
        · rw [none]
          linarith
        · linarith
      · rw [cumulative_cons, if_pos below.le]
        linarith

namespace IsQuantile

/-- What lies below the value at risk is within the level. -/
theorem massBelow_le (q : IsQuantile points alpha v) (nonneg : 0 ≤ alpha) :
    massBelow points v ≤ alpha := by
  rcases q.missed with none | missed
  · exact none.trans_le nonneg
  · have := slack_pos
    linarith

/-- A higher level has no lower quantile. -/
theorem le_of_le (h : IsListing points) (q : IsQuantile points alpha v)
    (q' : IsQuantile points beta w) (le : alpha ≤ beta) : v ≤ w := by
  by_contra lower
  have upto := h.cumulative_le_massBelow (not_le.mp lower)
  obtain ⟨p, member⟩ := q'.listed
  have own := h.cumulative_eq member
  have positive : 0 < p := h.positive _ member
  have nonneg : 0 ≤ massBelow points w := h.massBelow_nonneg
  have reached := q'.reached
  rcases q.missed with none | missed
  · linarith
  · linarith

/-- At level zero the quantile is the least utility. -/
theorem isLeast (h : IsListing points) (q : IsQuantile points 0 v) :
    IsLeast {u | ∃ p, (u, p) ∈ points} v := by
  refine ⟨q.listed, fun u ⟨p, member⟩ => h.le_of_massBelow_eq_zero ?_ (u, p) member⟩
  exact le_antisymm (q.massBelow_le le_rfl) h.massBelow_nonneg

/-- Where no cumulative probability lies within the slack below the level, the quantile is the least
utility that reaches it. -/
theorem isLeast_reaching (h : IsListing points) (q : IsQuantile points alpha v)
    (reached : alpha ≤ cumulative points v) (positive : 0 < alpha) :
    IsLeast {u | (∃ p, (u, p) ∈ points) ∧ alpha ≤ cumulative points u} v := by
  refine ⟨⟨q.listed, reached⟩, fun u ⟨_, enough⟩ => ?_⟩
  by_contra lower
  have upto := h.cumulative_le_massBelow (not_le.mp lower)
  have := slack_pos
  rcases q.missed with none | missed <;> linarith

end IsQuantile

end Level

/-! ## The conditional value at risk -/

section Tail

variable {points : List (ℚ × ℚ)} {alpha beta v w : ℚ}

/-- A part of the mass: of every utility no more than its probability. -/
structure IsPart (points : List (ℚ × ℚ)) (alpha : ℚ) (q : ℚ → ℚ) : Prop where
  nonneg : ∀ r ∈ points, 0 ≤ q r.1
  le : ∀ r ∈ points, q r.1 ≤ r.2
  mass : (points.map fun r => q r.1).sum = alpha

/-- A part of the mass weighs no less than the level at the value at risk less the shortfall. -/
theorem IsPart.le_sum {q : ℚ → ℚ} (part : IsPart points alpha q) (v : ℚ) :
    v * alpha - shortfall points v ≤ (points.map fun r => r.1 * q r.1).sum := by
  have split : (points.map fun r => r.1 * q r.1).sum =
      v * alpha + (points.map fun r => (r.1 - v) * q r.1).sum := by
    rw [← part.mass, ← List.sum_map_mul_left, ← List.sum_map_add]
    simp only [← add_mul, add_sub_cancel]
  have behind : -shortfall points v ≤ (points.map fun r => (r.1 - v) * q r.1).sum := by
    rw [shortfall, ← neg_one_mul, ← weigh_mul_left, weigh]
    refine List.sum_le_sum fun r hr => ?_
    have nonneg := part.nonneg r hr
    have le := part.le r hr
    rcases le_total v r.1 with above | below
    · rw [max_eq_right (sub_nonpos.mpr above), mul_zero, zero_mul]
      exact mul_nonneg (sub_nonneg.mpr above) nonneg
    · rw [max_eq_left (sub_nonneg.mpr below)]
      have := mul_le_mul_of_nonneg_left le (sub_nonneg.mpr below)
      linarith
  linarith

/-- How much of a utility belongs to the worst part of the mass: all below the value at risk, and of
that what the level still lacks. -/
def worstShare (points : List (ℚ × ℚ)) (alpha v p u : ℚ) : ℚ :=
  if u < v then 1 else if u = v then (alpha - massBelow points v) / p else 0

namespace IsQuantile

theorem worstShare_mem (h : IsListing points) (q : IsQuantile points alpha v)
    (reached : alpha ≤ cumulative points v) (nonneg : 0 ≤ alpha) {p : ℚ} (member : (v, p) ∈ points)
    (u : ℚ) : worstShare points alpha v p u ∈ Set.Icc 0 1 := by
  have positive : 0 < p := h.positive _ member
  have below := q.massBelow_le nonneg
  have room : alpha - massBelow points v ≤ p := by
    rw [h.cumulative_eq member] at reached
    linarith
  unfold worstShare
  split
  · exact ⟨zero_le_one, le_rfl⟩
  · split
    · exact ⟨div_nonneg (sub_nonneg.mpr below) positive.le, (div_le_one positive).mpr room⟩
    · exact ⟨le_rfl, zero_le_one⟩

theorem weigh_worstShare (h : IsListing points) {p : ℚ} (member : (v, p) ∈ points) :
    weigh (worstShare points alpha v p) points = alpha := by
  have positive : 0 < p := h.positive _ member
  have own : weigh (fun u => if u = v then 1 else 0) points = p :=
    ((mem_iff_weigh h.ascending h.positive).mp member).2
  have parts : worstShare points alpha v p = fun u => (if u < v then 1 else 0) +
      (alpha - massBelow points v) / p * (if u = v then 1 else 0) := by
    funext u
    rcases lt_trichotomy u v with below | same | above
    · simp [worstShare, below, below.ne]
    · simp [worstShare, same]
    · simp [worstShare, above.not_gt, above.ne']
  rw [parts, weigh_add, weigh_mul_left, own, div_mul_cancel₀ _ positive.ne', ← massBelow,
    add_sub_cancel]

theorem weigh_mul_worstShare (h : IsListing points) {p : ℚ} (member : (v, p) ∈ points) :
    weigh (fun u => u * worstShare points alpha v p u) points =
      v * alpha - shortfall points v := by
  have parts : (fun u => u * worstShare points alpha v p u) = fun u =>
      v * worstShare points alpha v p u + -1 * max (v - u) 0 := by
    funext u
    rcases lt_trichotomy u v with below | same | above
    · simp [worstShare, below, below.le]
    · simp [same]
    · simp [worstShare, above.not_gt, above.ne', above.le]
  rw [parts, weigh_add, weigh_mul_left, weigh_mul_left, weigh_worstShare h member, ← shortfall]
  ring

/-- Where the quantile reaches the level, the least that a part of the mass of that size weighs is
the level at the quantile less the shortfall. -/
theorem isLeast_part (h : IsListing points) (q : IsQuantile points alpha v)
    (reached : alpha ≤ cumulative points v) (nonneg : 0 ≤ alpha) :
    IsLeast {t | ∃ part, IsPart points alpha part ∧ t = (points.map fun r => r.1 * part r.1).sum}
      (v * alpha - shortfall points v) := by
  refine ⟨?_, fun t ⟨part, isPart, sum⟩ => sum ▸ isPart.le_sum v⟩
  obtain ⟨p, member⟩ := q.listed
  have own (r : ℚ × ℚ) (hr : r ∈ points) :
      weigh (fun u => if u = r.1 then 1 else 0) points = r.2 :=
    ((mem_iff_weigh h.ascending h.positive).mp hr).2
  have share (u : ℚ) := q.worstShare_mem h reached nonneg member u
  refine ⟨fun u => worstShare points alpha v p u * weigh (fun w => if w = u then 1 else 0) points,
    ⟨fun r hr => ?_, fun r hr => ?_, ?_⟩, ?_⟩
  · exact mul_nonneg (share r.1).1 ((own r hr).symm ▸ (h.positive r hr).le)
  · rw [own r hr]
    exact mul_le_of_le_one_left (h.positive r hr).le (share r.1).2
  · rw [List.map_congr_left fun r hr => congrArg _ (own r hr)]
    exact weigh_worstShare h member
  · rw [← weigh_mul_worstShare h member]
    refine congrArg List.sum (List.map_congr_left fun r hr => ?_)
    beta_reduce
    rw [own r hr, mul_assoc]

end IsQuantile

/-- Nothing is left above a utility that the whole mass reaches. -/
theorem shortfall_eq (h : IsListing points) (all : massOf points ≤ cumulative points v) :
    shortfall points v = v * massOf points - weighted points := by
  have none : ∀ r ∈ points, r.1 ≤ v := by
    intro r hr
    by_contra above
    have own := ((mem_iff_weigh h.ascending h.positive).mp hr).2
    have both : cumulative points v + r.2 ≤ massOf points := by
      rw [cumulative, ← own, ← weigh_add, massOf_eq_weigh]
      refine weigh_le h.positive fun q _ => ?_
      by_cases same : q.1 = r.1
      · rw [same, if_neg above, if_pos rfl, zero_add]
      · rw [if_neg same, add_zero]
        split <;> norm_num
    have := h.positive r hr
    linarith
  have plain : shortfall points v = weigh (fun u => v * 1 + -1 * u) points := by
    refine congrArg List.sum (List.map_congr_left fun r hr => ?_)
    beta_reduce
    rw [max_eq_left (sub_nonneg.mpr (none r hr))]
    ring
  rw [plain, weigh_add, weigh_mul_left, weigh_mul_left, massOf_eq_weigh,
    show weigh (fun u => u) points = weighted points from rfl]
  ring

/-- The points below a utility are the first ones. -/
theorem takeWhile_lift (h : IsListing points) (v : ℚ) :
    (lift points).takeWhile (fun r => decide (r.1 < finite v)) =
      lift (points.filter fun r => decide (r.1 < v)) := by
  induction points with
  | nil => rfl
  | cons r points ih =>
    change List.takeWhile _ ((finite r.1, finite r.2) :: lift points) = _
    rw [List.takeWhile_cons, List.filter_cons]
    by_cases below : r.1 < v
    · simp only [finite_lt, below, decide_true, if_true]
      rw [ih h.tail]
      rfl
    · have none : points.filter (fun r => decide (r.1 < v)) = [] := by
        refine List.filter_eq_nil_iff.mpr fun q hq => ?_
        have := h.lt_of_mem q hq
        simpa using (not_lt.mp below).trans this.le
      simp [below, none, lift]

/-- A sum over the points below a utility. -/
theorem weigh_filter (points : List (ℚ × ℚ)) (f : ℚ → ℚ) (v : ℚ) :
    weigh f (points.filter fun r => decide (r.1 < v)) =
      weigh (fun u => if u < v then f u else 0) points := by
  induction points with
  | nil => rfl
  | cons r points ih =>
    rw [List.filter_cons, weigh_cons, ← ih]
    by_cases below : r.1 < v
    · simp [below, weigh_cons]
    · simp [below]

/-- What the points below a utility are worth. -/
theorem weighted_filter (points : List (ℚ × ℚ)) (v : ℚ) :
    weighted (points.filter fun r => decide (r.1 < v)) =
      v * massBelow points v - shortfall points v := by
  have parts : (fun u => if u < v then u else 0) = fun u =>
      v * (if u < v then 1 else 0) + -1 * max (v - u) 0 := by
    funext u
    rcases lt_or_ge u v with below | above
    · simp [below, below.le]
    · simp [above, above.not_gt]
  rw [show weighted _ = weigh (fun u => u) _ from rfl, weigh_filter, parts, weigh_add,
    weigh_mul_left, weigh_mul_left, ← massBelow, ← shortfall]
  ring

variable {x : Distribution Exact}

/-- The conditional value falls behind the value at risk by the shortfall, spread over the level. -/
theorem conditionalValueAtRisk_eq (hx : x.points = lift points) (h : IsListing points)
    (value : x.valueAtRisk (finite alpha) = .ok (finite v)) (below : massBelow points v ≤ alpha) :
    x.conditionalValueAtRisk (finite alpha) = .ok (finite (v - shortfall points v / alpha)) := by
  unfold conditionalValueAtRisk
  rw [value]
  change (if (finite alpha : Exact) == finite 0 then _ else _) = _
  rw [finite_beq]
  by_cases zero : alpha = 0
  · rw [if_pos (decide_eq_true zero), zero, div_zero, sub_zero]
    rfl
  · have mass : massOf (points.filter fun r => decide (r.1 < v)) = massBelow points v := by
      rw [massOf_eq_weigh, weigh_filter, massBelow]
    have lacking : max (alpha - massBelow points v) 0 = alpha - massBelow points v :=
      max_eq_left (sub_nonneg.mpr below)
    have worth : v * massBelow points v - shortfall points v + v * (alpha - massBelow points v) =
        v * alpha - shortfall points v := by ring
    rw [if_neg (by rwa [decide_eq_true_iff]), hx, takeWhile_lift h, weighted_eq_total,
      massOf_eq_total, mass, weighted_filter, finite_sub, zero_eq_finite, larger_finite, lacking,
      finite_mul, finite_add, finite_div _ zero, worth, sub_div, mul_div_cancel_right₀ v zero]
    rfl

/-- At every level the search for the value at risk finds a quantile. -/
theorem exists_valueAtRisk (hx : x.points = lift points) (h : IsListing points)
    (mass : massOf points = 1) (level : alpha ∈ Set.Icc 0 1) :
    ∃ v, IsQuantile points alpha v ∧ x.valueAtRisk (finite alpha) = .ok (finite v) := by
  have nonempty : points ≠ [] := by
    rintro rfl
    exact zero_ne_one mass
  have lifted : lift points ≠ [] := List.map_eq_nil_iff.not.mpr nonempty
  obtain ⟨v, found, quantile⟩ := quantile?_eq h nonempty (s := 0)
    (level.2.trans_eq (by rw [mass, zero_add]))
  have admitted : checkLevel (finite alpha) = .ok () := if_pos level
  refine ⟨v, by rwa [sub_zero] at quantile, ?_⟩
  unfold valueAtRisk
  rw [admitted, hx, List.getLast?_eq_some_getLast lifted,
    show (Mass.empty : Mass Exact) = ⟨finite 0, finite 0⟩ from rfl, found]
  rfl

/-- The conditional value does not fall as the level rises. -/
theorem conditional_le (h : IsListing points) (q : IsQuantile points alpha v)
    (q' : IsQuantile points beta w) (nonneg : 0 ≤ alpha) (le : alpha ≤ beta) :
    v - shortfall points v / alpha ≤ w - shortfall points w / beta := by
  have rise : v ≤ w := q.le_of_le h q' le
  have lag : 0 ≤ shortfall points v / alpha := div_nonneg h.shortfall_nonneg nonneg
  have spread : shortfall points v ≤ shortfall points v / alpha * beta := by
    rcases nonneg.eq_or_lt with rfl | positive
    · have none : massBelow points v = 0 :=
        le_antisymm (q.massBelow_le le_rfl) h.massBelow_nonneg
      rw [h.shortfall_eq_zero none, zero_div, zero_mul]
    · calc shortfall points v = shortfall points v / alpha * alpha :=
          (div_mul_cancel₀ _ positive.ne').symm
        _ ≤ shortfall points v / alpha * beta := mul_le_mul_of_nonneg_left le lag
  rcases (nonneg.trans le).eq_or_lt with rfl | positive
  · rw [div_zero, sub_zero]
    linarith
  · have within : (w - v) * massBelow points w ≤ (w - v) * beta :=
      mul_le_mul_of_nonneg_left (q'.massBelow_le positive.le) (sub_nonneg.mpr rise)
    have grown : shortfall points w / beta ≤ shortfall points v / alpha + (w - v) := by
      rw [div_le_iff₀ positive, add_mul]
      exact (h.shortfall_le v w).trans (add_le_add spread within)
    linarith

end Tail

/-! ## The measures of a distribution -/

/-- The risk measures of a distribution of unit mass. -/
theorem riskMeasures_spec {given points : List (ℚ × ℚ)}
    (listed : (ofPoints (lift given)).points = lift points) (mass : massOf points = 1) :
    ∃ v c : ℚ → ℚ,
      (∀ alpha ∈ Set.Icc 0 1,
        (ofPoints (lift given)).valueAtRisk (finite alpha) = .ok (finite (v alpha)) ∧
        (ofPoints (lift given)).conditionalValueAtRisk (finite alpha) = .ok (finite (c alpha))) ∧
      MonotoneOn v (Set.Icc 0 1) ∧ MonotoneOn c (Set.Icc 0 1) ∧
      (∀ alpha ∈ Set.Icc 0 1, c alpha ≤ v alpha) ∧
      IsLeast {u | ∃ p, (u, p) ∈ points} (v 0) ∧ c 0 = v 0 ∧
      ∀ alpha ∈ Set.Ioc 0 1,
        (∀ r ∈ points, ¬ (cumulative points r.1 < alpha ∧ alpha ≤ cumulative points r.1 + slack)) →
        IsLeast {u | (∃ p, (u, p) ∈ points) ∧ alpha ≤ cumulative points u} (v alpha) ∧
        IsLeast {t | ∃ q, IsPart points alpha q ∧ t = (points.map fun r => r.1 * q r.1).sum}
          (alpha * c alpha) ∧
        (alpha = 1 → ∀ [Root ℚ], ∃ m, (ofPoints (lift given)).moments = .ok m ∧
          m.mean = finite (c alpha)) := by
  have h := isListing_of_ofPoints listed
  choose! v quantile value using
    fun (alpha : ℚ) (level : alpha ∈ Set.Icc 0 1) => exists_valueAtRisk listed h mass level
  have zero : (0 : ℚ) ∈ Set.Icc 0 1 := ⟨le_rfl, zero_le_one⟩
  refine ⟨v, fun alpha => v alpha - shortfall points (v alpha) / alpha, fun alpha level =>
    ⟨value alpha level, conditionalValueAtRisk_eq listed h (value alpha level)
      ((quantile alpha level).massBelow_le level.1)⟩, ?_, ?_, ?_, ?_, ?_, ?_⟩
  · exact fun alpha level beta level' le =>
      (quantile alpha level).le_of_le h (quantile beta level') le
  · exact fun alpha level beta level' le =>
      conditional_le h (quantile alpha level) (quantile beta level') level.1 le
  · exact fun alpha level => sub_le_self _ (div_nonneg h.shortfall_nonneg level.1)
  · exact (quantile 0 zero).isLeast h
  · exact (congrArg (v 0 - ·) (div_zero _)).trans (sub_zero _)
  · intro alpha ⟨positive, atMost⟩ apart
    have split := quantile alpha ⟨positive.le, atMost⟩
    have reached : alpha ≤ cumulative points (v alpha) := by
      obtain ⟨p, member⟩ := split.listed
      by_contra missed
      exact apart _ member ⟨not_le.mp missed, split.reached⟩
    have worst : alpha * (v alpha - shortfall points (v alpha) / alpha) =
        v alpha * alpha - shortfall points (v alpha) := by
      rw [mul_sub, mul_div_cancel₀ _ positive.ne', mul_comm]
    refine ⟨split.isLeast_reaching h reached positive,
      worst ▸ split.isLeast_part h reached positive.le, ?_⟩
    rintro rfl _
    obtain ⟨m, run, mean⟩ := moments_eq listed h.positive (mass ▸ one_pos)
    refine ⟨m, run, ?_⟩
    beta_reduce
    rw [mean, mass, div_one, div_one, shortfall_eq h (mass.trans_le reached), mass, mul_one,
      sub_sub_cancel]

/-- A bet that mostly wins. -/
def bet : List (ℚ × ℚ) := [(15, 1 / 5), (35, 4 / 5)]

/-- The worse half of the bet takes all of the loss and a part of the gain. -/
theorem riskMeasures_spec_bet : (ofPoints (lift bet.reverse)).points = lift bet ∧
    massOf bet = 1 ∧
    (ofPoints (lift bet.reverse)).valueAtRisk (finite (1 / 2)) = .ok (finite 35) ∧
    (ofPoints (lift bet.reverse)).conditionalValueAtRisk (finite (1 / 2)) = .ok (finite 27) ∧
    IsLeast {u | (∃ p, (u, p) ∈ bet) ∧ 1 / 2 ≤ cumulative bet u} 35 ∧
    IsLeast {t | ∃ q, IsPart bet (1 / 2) q ∧ t = (bet.map fun r => r.1 * q r.1).sum}
      (1 / 2 * 27) := by
  have listing : IsListing bet := ⟨by decide +kernel, by decide +kernel⟩
  have listed : (ofPoints (lift bet.reverse)).points = lift bet :=
    listing.ofPoints_eq (by decide +kernel) fun f => by simp [weigh, bet, add_comm]
  have mass : massOf bet = 1 := by decide +kernel
  have half : (1 / 2 : ℚ) ∈ Set.Ioc 0 1 := by constructor <;> norm_num
  have apart : ∀ r ∈ bet,
      ¬ (cumulative bet r.1 < 1 / 2 ∧ 1 / 2 ≤ cumulative bet r.1 + slack) := by decide +kernel
  have sorted : ofPoints (lift bet.reverse) = ⟨lift bet⟩ := congrArg Distribution.mk listed
  have value : (ofPoints (lift bet.reverse)).valueAtRisk (finite (1 / 2)) = .ok (finite 35) := by
    rw [sorted]
    decide +kernel
  have conditional : (ofPoints (lift bet.reverse)).conditionalValueAtRisk (finite (1 / 2)) =
      .ok (finite 27) := by
    rw [sorted]
    decide +kernel
  obtain ⟨v, c, run, -, -, -, -, -, spec⟩ := riskMeasures_spec listed mass
  obtain ⟨value', conditional'⟩ := run (1 / 2) (Set.Ioc_subset_Icc_self half)
  obtain ⟨least, worst, -⟩ := spec (1 / 2) half apart
  have v_eq : v (1 / 2) = 35 := finite.inj (Except.ok.inj (value'.symm.trans value))
  have c_eq : c (1 / 2) = 27 := finite.inj (Except.ok.inj (conditional'.symm.trans conditional))
  exact ⟨listed, mass, value, conditional, v_eq ▸ least, c_eq ▸ worst⟩

end Distribution

end Influence
