import Influence.Proofs.DoubleOrder
import Influence.Proofs.Merging

/-!
# Distributions of doubles

Doubles are sorted by their bits and put together by their values.  Over numbers the first order
refines the second (`ranking_number`), and so weighted doubles have one distribution whatever their
order and however their probabilities are shared out (`collect_canonical`).  Probabilities are exact
here: what rounding does to their sums is left out.
-/

namespace Influence

open Extended

/-- A double that is a number, infinite or not. -/
abbrev Number := {x : Float // x.isNaN = false}

namespace Distribution

theorem ranking_number : Ranking (Subtype.val : Number → Float)
    (fun x => Binary64.orderKey x.val) fun x => Binary64.rank x.val where
  sorts _ _ := rfl
  joins a b := by
    rw [Bool.eq_iff_iff, decide_eq_true_eq]
    exact Binary64.beq_iff_rank a.property b.property
  injective := Binary64.orderKey_injective.comp Subtype.val_injective
  refines _ _ := Binary64.rank_le_of_orderKey_le

/-- The sum of the positive probabilities given for a utility. -/
def massGiven (points : List (Number × ℚ)) (u : Number) : ℚ :=
  ((points.filter fun r => (r.1.val == u.val) && decide (0 < r.2)).map (·.2)).sum

theorem massAt_kept_number (points : List (Number × ℚ)) (u : Number) :
    massAt (fun x : Number => Binary64.rank x.val) (Binary64.rank u.val) (kept points) =
      massGiven points u := by
  rw [massAt_kept, massGiven]
  induction points with
  | nil => rfl
  | cons r points ih =>
    have joined := ranking_number.joins r.1 u
    rw [List.map_cons, List.sum_cons, ih, List.filter_cons, joined]
    by_cases same : Binary64.rank r.1.val = Binary64.rank u.val
    · by_cases pos : 0 < r.2
      · rw [if_pos same, gives, max_eq_left pos.le, if_pos (by simp [same, pos]), List.map_cons,
          List.sum_cons]
      · rw [if_pos same, gives, max_eq_right (not_lt.mp pos), if_neg (by simp [pos]), zero_add]
    · rw [if_neg same, if_neg (by simp [same]), zero_add]

/-- Points that share out a point: they have its utility and one sign, and their probabilities sum
to its own.  Since what is not positive is left out, points of both signs would give a utility more
than the one point does. -/
structure IsShared (r : Number × ℚ) (parts : List (Number × ℚ)) : Prop where
  utility : ∀ q ∈ parts, (q.1.val == r.1.val) = true
  sum : (parts.map (·.2)).sum = r.2
  sign : (∀ q ∈ parts, 0 ≤ q.2) ∨ ∀ q ∈ parts, q.2 ≤ 0

theorem IsShared.isSplit {r : Number × ℚ} {parts : List (Number × ℚ)} (h : IsShared r parts) :
    IsSplit (fun x : Number => Binary64.rank x.val) r parts where
  utility q hq := (Binary64.beq_iff_rank q.1.property r.1.property).mp (h.utility q hq)
  mass := by
    rw [gives, ← h.sum]
    rcases h.sign with nonneg | nonpos
    · have total : 0 ≤ (parts.map (·.2)).sum := List.sum_nonneg fun x hx => by
        obtain ⟨q, hq, rfl⟩ := List.mem_map.mp hx
        exact nonneg q hq
      rw [max_eq_left total]
      exact congrArg List.sum (List.map_congr_left fun q hq => max_eq_left (nonneg q hq))
    · have total : (parts.map (·.2)).sum ≤ 0 :=
        (List.sum_le_sum nonpos).trans_eq List.sum_map_zero
      rw [max_eq_right total]
      refine List.sum_eq_zero fun x hx => ?_
      obtain ⟨q, hq, rfl⟩ := List.mem_map.mp hx
      exact max_eq_right (nonpos q hq)

/-- Weighted doubles have one distribution: the utilities ascend, the probability of each is the sum
of the positive ones given for it, and neither the order of the points nor a split of one of them
plays a part.  The distribution has itself for its distribution. -/
theorem collect_canonical (points : List (Number × ℚ)) :
    ∃ listed : List (Number × ℚ),
      collect (placed Subtype.val points) = placed Subtype.val listed ∧
      listed.Pairwise (fun a b => a.1.val < b.1.val) ∧
      (∀ r ∈ listed, 0 < r.2 ∧ r.2 = massGiven points r.1 ∧ ∃ q ∈ points, q.1 = r.1 ∧ 0 < q.2) ∧
      (∀ q ∈ points, 0 < q.2 → ∃ r ∈ listed, (r.1.val == q.1.val) = true) ∧
      (∀ others, others.Perm points →
        collect (placed Subtype.val others) = placed Subtype.val listed) ∧
      (∀ before r after parts, points = before ++ r :: after → IsShared r parts →
        ∃ again : List (Number × ℚ),
          collect (placed Subtype.val (before ++ parts ++ after)) = placed Subtype.val again ∧
          List.Forall₂ (fun a b => (a.1.val == b.1.val) = true ∧ a.2 = b.2) again listed ∧
          ((∀ q ∈ parts, q.1 = r.1) → again = listed)) ∧
      collect (placed Subtype.val listed) = placed Subtype.val listed := by
  obtain ⟨listed, eq, merges⟩ := ranking_number.exists_collect points
  have same {a b : Number} : (a.val == b.val) = true ↔
      Binary64.rank a.val = Binary64.rank b.val := Binary64.beq_iff_rank a.property b.property
  refine ⟨listed, eq, ?_, fun r hr => ?_, fun q hq pos => ?_, fun others perm => ?_, ?_,
    ranking_number.collect_placed merges⟩
  · exact merges.ascending.imp fun {a b} below =>
      (Binary64.lt_iff_rank a.1.property b.1.property).mpr below
  · obtain ⟨q, hq, utility⟩ := (merges.first r hr).given
    have given := List.mem_filter.mp hq
    refine ⟨merges.positive r hr, ?_, q, given.1, utility, of_decide_eq_true given.2⟩
    rw [← massAt_kept_number, ← merges.massAt_eq, massAt_of_mem merges.ascending hr]
  · have member : q ∈ kept points := List.mem_filter.mpr ⟨hq, decide_eq_true pos⟩
    obtain ⟨r, hr, rank⟩ := (merges.exists_rank_iff pos_of_mem_kept _).mpr ⟨q, member, rfl⟩
    exact ⟨r, hr, same.mpr rank⟩
  · rw [ranking_number.collect_perm perm, eq]
  · intro before r after parts split shared
    subst split
    obtain ⟨again, eq', alike, exact⟩ := ranking_number.collect_split shared.isSplit merges
    exact ⟨again, eq', alike.imp fun a b h => ⟨same.mpr h.1, h.2⟩, exact⟩

end Distribution

end Influence
