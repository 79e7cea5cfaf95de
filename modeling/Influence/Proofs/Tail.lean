import Mathlib.Algebra.Order.BigOperators.Group.Finset
import Mathlib.Algebra.Order.Field.Basic
import Mathlib.Order.Bounds.Basic
import Influence.Proofs.TotalProbability

/-!
# The lower tail

Amounts that take all of the mass below a quantile and none of the mass above it (`IsTail`) have
the least weighted total among amounts of the same sum (`IsTail.weighted_le`), and at every level
there are such amounts (`exists_isTail`).  The tail expectation of a strategy at a level is the
least total of its compatible paths' utilities, divided by the level
(`Strategy.IsTailExpectation`).
-/

namespace Influence

open Extended

section Tail

variable {s : Finset Path} {w u q r : Path → ℚ} {eta alpha : ℚ}

/-- Amounts that take all of the mass below a quantile and none of the mass above it. -/
structure IsTail (s : Finset Path) (w u : Path → ℚ) (eta : ℚ) (q : Path → ℚ) : Prop where
  nonneg : ∀ p ∈ s, 0 ≤ q p
  le : ∀ p ∈ s, q p ≤ w p
  below : ∀ p ∈ s, u p < eta → q p = w p
  above : ∀ p ∈ s, eta < u p → q p = 0

/-- Moving mass out of the tail does not lower the weighted total. -/
theorem IsTail.weighted_le (h : IsTail s w u eta q) (nonneg : ∀ p ∈ s, 0 ≤ r p)
    (le : ∀ p ∈ s, r p ≤ w p) (same : ∑ p ∈ s, r p = ∑ p ∈ s, q p) :
    ∑ p ∈ s, q p * u p ≤ ∑ p ∈ s, r p * u p := by
  have moved : ∀ p ∈ s, q p * (u p - eta) ≤ r p * (u p - eta) := by
    intro p hp
    rcases lt_trichotomy (u p) eta with low | level | high
    · rw [h.below p hp low]
      exact mul_le_mul_of_nonpos_right (le p hp) (sub_nonpos.mpr low.le)
    · rw [level, sub_self, mul_zero, mul_zero]
    · rw [h.above p hp high, zero_mul]
      exact mul_nonneg (nonneg p hp) (sub_nonneg.mpr high.le)
  have total := Finset.sum_le_sum moved
  simp only [mul_sub, Finset.sum_sub_distrib, ← Finset.sum_mul, same] at total
  linarith

/-- The mass up to a level is the mass below it and the mass at it. -/
private theorem sum_filter_le (s : Finset Path) (w u : Path → ℚ) (c : ℚ) :
    ∑ p ∈ s.filter (u · ≤ c), w p =
      ∑ p ∈ s.filter (u · < c), w p + ∑ p ∈ s.filter (u · = c), w p := by
  simp only [Finset.sum_filter]
  rw [← Finset.sum_add_distrib]
  refine Finset.sum_congr rfl fun p _ => ?_
  rcases lt_trichotomy (u p) c with low | level | high
  · rw [if_pos low.le, if_pos low, if_neg low.ne, add_zero]
  · rw [if_pos level.le, if_neg level.not_lt, if_pos level, zero_add]
  · rw [if_neg (not_le.mpr high), if_neg (not_lt.mpr high.le), if_neg high.ne', add_zero]

/-- Some utility is a quantile: the mass below it is no more than the level, and the mass up to
it no less. -/
theorem exists_quantile (pos : ∀ p ∈ s, 0 < w p) (total : ∑ p ∈ s, w p = 1) (level : 0 < alpha)
    (level_le : alpha ≤ 1) :
    ∃ p ∈ s, ∑ r ∈ s.filter (u · < u p), w r ≤ alpha ∧
      alpha ≤ ∑ r ∈ s.filter (u · ≤ u p), w r := by
  have nonempty : s.Nonempty := by
    by_contra empty
    rw [Finset.not_nonempty_iff_eq_empty] at empty
    rw [empty, Finset.sum_empty] at total
    exact zero_ne_one total
  set reached := s.filter fun p => alpha ≤ ∑ r ∈ s.filter (u · ≤ u p), w r with hreached
  have reached_nonempty : reached.Nonempty := by
    obtain ⟨top, htop, greatest⟩ := s.exists_max_image u nonempty
    refine ⟨top, Finset.mem_filter.mpr ⟨htop, ?_⟩⟩
    rwa [Finset.filter_true_of_mem greatest, total]
  obtain ⟨p, hp, least⟩ := reached.exists_min_image u reached_nonempty
  obtain ⟨member, enough⟩ := Finset.mem_filter.mp hp
  refine ⟨p, member, ?_, enough⟩
  rcases (s.filter (u · < u p)).eq_empty_or_nonempty with empty | lower
  · rw [empty, Finset.sum_empty]
    exact level.le
  obtain ⟨next, hnext, greatest⟩ := (s.filter (u · < u p)).exists_max_image u lower
  obtain ⟨next_mem, next_lt⟩ := Finset.mem_filter.mp hnext
  have short : ∑ r ∈ s.filter (u · ≤ u next), w r < alpha := by
    by_contra enough
    have := least next (Finset.mem_filter.mpr ⟨next_mem, not_lt.mp enough⟩)
    exact absurd next_lt (not_lt.mpr this)
  refine (Finset.sum_le_sum_of_subset_of_nonneg (fun r hr => ?_) fun r hr _ => ?_).trans short.le
  · exact Finset.mem_filter.mpr ⟨(Finset.mem_filter.mp hr).1, greatest r hr⟩
  · exact (pos r (Finset.mem_filter.mp hr).1).le

/-- At every level there is a tail whose quantile is one of the utilities. -/
theorem exists_isTail (pos : ∀ p ∈ s, 0 < w p) (total : ∑ p ∈ s, w p = 1) (level : 0 < alpha)
    (level_le : alpha ≤ 1) :
    ∃ p ∈ s, ∃ q, IsTail s w u (u p) q ∧ ∑ r ∈ s, q r = alpha := by
  obtain ⟨p, hp, short, enough⟩ := exists_quantile (u := u) pos total level level_le
  rw [sum_filter_le] at enough
  set lower := ∑ r ∈ s.filter (u · < u p), w r
  set equal := ∑ r ∈ s.filter (u · = u p), w r with hequal
  have equal_pos : 0 < equal := Finset.sum_pos
    (fun r hr => pos r (Finset.mem_filter.mp hr).1) ⟨p, Finset.mem_filter.mpr ⟨hp, rfl⟩⟩
  -- The paths at the quantile share what is left of the level in proportion to their mass.
  set part := (alpha - lower) / equal with hpart
  have part_nonneg : 0 ≤ part := div_nonneg (sub_nonneg.mpr short) equal_pos.le
  have part_le : part ≤ 1 := (div_le_one equal_pos).mpr (by linarith)
  refine ⟨p, hp, fun r => if u r < u p then w r else if u r = u p then w r * part else 0,
    ⟨fun r hr => ?_, fun r hr => ?_, fun r _ low => if_pos low, fun r _ high => ?_⟩, ?_⟩
  · have := (pos r hr).le
    split_ifs
    · exact this
    · exact mul_nonneg this part_nonneg
    · exact le_rfl
  · have := (pos r hr).le
    split_ifs
    · exact le_rfl
    · exact mul_le_of_le_one_right this part_le
    · exact this
  · rw [if_neg (not_lt.mpr high.le), if_neg high.ne']
  · have split (r : Path) : (if u r < u p then w r else if u r = u p then w r * part else 0) =
        (if u r < u p then w r else 0) + (if u r = u p then w r else 0) * part := by
      rcases lt_trichotomy (u r) (u p) with low | level | high
      · rw [if_pos low, if_pos low, if_neg low.ne, zero_mul, add_zero]
      · rw [if_neg level.not_lt, if_neg level.not_lt, if_pos level, if_pos level, zero_add]
      · rw [if_neg (not_lt.mpr high.le), if_neg high.ne', if_neg (not_lt.mpr high.le),
          if_neg high.ne', zero_mul, add_zero]
    simp only [split]
    rw [Finset.sum_add_distrib, ← Finset.sum_mul, ← Finset.sum_filter, ← Finset.sum_filter,
      ← hequal, hpart, mul_div_cancel₀ _ equal_pos.ne']
    exact add_sub_cancel _ _

end Tail

namespace Strategy

variable {d : Diagram Exact} {σ : Strategy}

/-- The least total utility of the compatible paths when each counts an amount of at most its
probability, the amounts adding up to the level, divided by the level. -/
def IsTailExpectation (d : Diagram Exact) (σ : Strategy) (alpha v : ℚ) : Prop :=
  ∃ ps, σ.compatiblePaths d .empty = .ok ps ∧
    IsLeast {r | ∃ q : Path → ℚ, (∀ p ∈ ps, 0 ≤ q p ∧ q p ≤ d.weight p) ∧ (ps.map q).sum = alpha ∧
      r = (ps.map fun p => q p * d.utility p).sum / alpha} v

/-- A tail of the utilities, shifted or not, gives the tail expectation. -/
theorem Covers.isTailExpectation (covers : σ.Covers d) (hn : d.Normalized) {shift eta alpha : ℚ}
    (level : 0 < alpha) {q : Path → ℚ}
    (tail : IsTail (σ.followers d) d.weight (fun p => d.utility p + shift) eta q)
    (sum : ∑ p ∈ σ.followers d, q p = alpha) :
    σ.IsTailExpectation d alpha ((∑ p ∈ σ.followers d, q p * d.utility p) / alpha) := by
  obtain ⟨ps, run, -, member⟩ := covers.compatiblePaths_eq_ok hn.arranged hn.assembled
  have follower {p : Path} : p ∈ ps ↔ p ∈ σ.followers d :=
    (member p).trans Strategy.mem_followers.symm
  have total (f : Path → ℚ) := covers.sum_compatiblePaths hn run f
  refine ⟨ps, run, ⟨q, fun p hp => ⟨?_, ?_⟩, ?_, ?_⟩, ?_⟩
  · exact tail.nonneg p (follower.mp hp)
  · exact tail.le p (follower.mp hp)
  · rw [total, sum]
  · rw [total]
  · rintro _ ⟨r, bounds, same, rfl⟩
    rw [total] at same ⊢
    have order := tail.weighted_le (fun p hp => (bounds p (follower.mpr hp)).1)
      (fun p hp => (bounds p (follower.mpr hp)).2) (same.trans sum.symm)
    simp only [mul_add, Finset.sum_add_distrib, ← Finset.sum_mul, same, sum] at order
    exact div_le_div_of_nonneg_right (by linarith) level.le

end Strategy

end Influence
