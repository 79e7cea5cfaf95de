import Influence.Outcome.Risk
import Influence.Proofs.Merging
import Influence.Proofs.TotalProbability

/-!
# Distributions under a strategy

Sorting the outcomes of a strategy and merging those of equal utility keeps the weight of every
function of the utility (`ofPoints_eq`), so the mean of the distribution is the expected utility
of the strategy (`mean_ofStrategy`).
-/

namespace Influence

open Extended

namespace Distribution

/-- Exact points from rational ones. -/
def lift (points : List (ℚ × ℚ)) : List (Exact × Exact) :=
  points.map fun r => (finite r.1, finite r.2)

/-- The mass of points. -/
def massOf (points : List (ℚ × ℚ)) : ℚ := (points.map (·.2)).sum

/-- The weighted sum of points. -/
def weighted (points : List (ℚ × ℚ)) : ℚ := (points.map fun r => r.1 * r.2).sum

/-- The sum of a function of the utility, weighted with the probabilities. -/
def weigh (f : ℚ → ℚ) (points : List (ℚ × ℚ)) : ℚ := (points.map fun r => f r.1 * r.2).sum

theorem weigh_cons (f : ℚ → ℚ) (r : ℚ × ℚ) (points : List (ℚ × ℚ)) :
    weigh f (r :: points) = f r.1 * r.2 + weigh f points :=
  rfl

theorem massOf_eq_weigh (points : List (ℚ × ℚ)) : massOf points = weigh (fun _ => 1) points := by
  simp only [massOf, weigh, one_mul]

/-- Exact numbers are sorted and put together by one order. -/
theorem ranking_finite : Ranking (finite : ℚ → Exact) id id where
  sorts _ _ := rfl
  joins := finite_beq
  injective := Function.injective_id
  refines _ _ := id

/-- Outcomes of positive probability keep the weight of every function of their utility; each
utility is listed once, ascending. -/
theorem ofPoints_eq {points : List (ℚ × ℚ)} (pos : ∀ r ∈ points, 0 < r.2) :
    ∃ merged, (ofPoints (lift points)).points = lift merged ∧
      (∀ f, weigh f merged = weigh f points) ∧ merged.Pairwise (fun a b => a.1 < b.1) ∧
      ∀ r ∈ merged, 0 < r.2 := by
  obtain ⟨merged, eq, merges⟩ := ranking_finite.exists_collect points
  have all : kept points = points :=
    List.filter_eq_self.mpr fun r hr => decide_eq_true (pos r hr)
  rw [all] at merges
  exact ⟨merged, eq, merges.weights, merges.ascending, merges.positive⟩

/-- In a list without repeated utilities a probability is the weight of its utility. -/
theorem mem_iff_weigh {points : List (ℚ × ℚ)} (ascending : points.Pairwise fun a b => a.1 < b.1)
    (pos : ∀ r ∈ points, 0 < r.2) {u q : ℚ} :
    (u, q) ∈ points ↔ 0 < q ∧ weigh (fun v => if v = u then 1 else 0) points = q := by
  have listed {r : ℚ × ℚ} (hr : r ∈ points) : massAt id r.1 points = r.2 :=
    massAt_of_mem ascending hr
  change _ ↔ 0 < q ∧ massAt id u points = q
  refine ⟨fun h => ⟨pos _ h, listed h⟩, fun ⟨hq, mass⟩ => ?_⟩
  obtain ⟨r, hr, rfl⟩ := (massAt_pos_iff pos u).mp (mass ▸ hq)
  rwa [← mass, id_eq, listed hr]

/-- Where a function is zero on what a filter drops, its sum is that over what is kept. -/
theorem sum_map_filter {β : Type} {keep : β → Bool} {f : β → ℚ} {bs : List β}
    (h : ∀ b ∈ bs, ¬ keep b = true → f b = 0) :
    ((bs.filter keep).map f).sum = (bs.map f).sum := by
  induction bs with
  | nil => rfl
  | cons b bs ih =>
    obtain ⟨first, rest⟩ := List.forall_mem_cons.mp h
    rw [List.filter_cons, List.map_cons, List.sum_cons, ← ih rest]
    split
    case isTrue => rw [List.map_cons, List.sum_cons]
    case isFalse drop => rw [first drop, zero_add]

theorem filterMap_ite {β : Type} (keep : Path → Prop) [DecidablePred keep] (f : Path → β)
    (ps : List Path) : (ps.filterMap fun p => if keep p then some (f p) else none) =
      (ps.filter fun p => decide (keep p)).map f := by
  induction ps with
  | nil => rfl
  | cons p ps ih =>
    by_cases h : keep p <;> simp [h, ih]

theorem weighted_eq_total (points : List (ℚ × ℚ)) :
    Mass.total ((lift points).map fun r => r.1 * r.2) = finite (weighted points) := by
  rw [weighted, ← total_map_finite, lift, List.map_map, List.map_map]
  rfl

theorem massOf_eq_total (points : List (ℚ × ℚ)) :
    Mass.total ((lift points).map (·.2)) = finite (massOf points) := by
  rw [massOf, ← total_map_finite, lift, List.map_map, List.map_map]
  rfl

variable [Root ℚ]

/-- The mean of points with positive probabilities. -/
theorem moments_eq {x : Distribution Exact} {points : List (ℚ × ℚ)} (hx : x.points = lift points)
    (pos : ∀ r ∈ points, 0 < r.2) (mass : 0 < massOf points) :
    ∃ m, x.moments = .ok m ∧ m.mean = finite (weighted points / massOf points) := by
  have admitted : ((lift points).any fun r =>
      !Scalar.isFinite r.2 || decide (r.2 < 0) || !Scalar.isFinite r.1) = false := by
    refine List.any_eq_false.mpr fun r hr => ?_
    obtain ⟨q, hq, rfl⟩ := List.mem_map.mp hr
    have : ¬ (finite q.2 : Exact) < 0 := not_lt.mpr (pos q hq).le
    simp [this]
  have mean : Moments.meanOf (finite (massOf points)) (lift points) (fun v w => v * w) =
      finite (weighted points / massOf points) := by
    rw [Moments.meanOf, ← finite_div _ mass.ne', ← weighted_eq_total]
  have heavy : ¬ (finite (massOf points) : Exact) ≤ 0 := not_le.mpr mass
  have result : ∃ m, Moments.ofPoints x.points = some m ∧
      m.mean = finite (weighted points / massOf points) := by
    unfold Moments.ofPoints
    rw [hx, admitted, massOf_eq_total]
    simp only [Bool.false_eq_true, if_false, if_neg heavy, mean]
    split <;> exact ⟨_, rfl, by rfl⟩
  obtain ⟨m, hm, hmean⟩ := result
  refine ⟨m, ?_, hmean⟩
  rw [moments, hm]

variable {d : Diagram Exact} {σ : Strategy}

omit [Root ℚ] in
/-- Where there is a distribution under a strategy, the paths of positive probability that follow
have a utility. -/
theorem valued_of_ofStrategy (covers : σ.Covers d) (hn : d.Normalized) {x : Distribution Exact}
    (run : ofStrategy d σ = .ok x) : ∀ p, inRange d.states p = true → σ.Follows d p →
      d.weight p ≠ 0 → d.rawPathUtility p = .ok (finite (d.utility p)) := by
  intro p hp follows weight
  obtain ⟨ps, paths, -, member⟩ := covers.compatiblePaths_eq_ok hn.arranged hn.assembled
  have generated : d.isGenerated = true := by
    rw [Diagram.isGenerated, hn.generated]
    rfl
  unfold ofStrategy at run
  simp only [generated, Bool.not_true, Bool.false_eq_true, if_false] at run
  obtain ⟨points, traversed, -⟩ := except_bind_eq_ok.mp run
  rw [σ.collect_eq paths] at traversed
  obtain ⟨c, step⟩ := except_eq_ok_of_mem_filterMapM traversed ((member p).mpr ⟨hp, follows⟩)
  obtain ⟨probability, known, step⟩ := except_bind_eq_ok.mp step
  rw [hn.weighed.probabilityOf_eq hp] at known
  obtain rfl := Except.ok.inj known
  have above : (0 : Exact) < finite (d.weight p) :=
    lt_of_le_of_ne (hn.weighed.weight_nonneg hp) (Ne.symm weight)
  rw [if_pos above] at step
  obtain ⟨u, raw, -⟩ := except_bind_eq_ok.mp step
  rw [raw, hn.eq_finite_of_rawPathUtility raw]

/-- The utilities and probabilities of the paths that are not improbable. -/
def likely (d : Diagram Exact) (ps : List Path) : List (ℚ × ℚ) :=
  (ps.filter fun p => decide (0 < d.weight p)).map fun p => (d.utility p, d.weight p)

omit [Root ℚ] in
theorem pos_of_mem_likely (d : Diagram Exact) (ps : List Path) : ∀ r ∈ likely d ps, 0 < r.2 := by
  intro r hr
  obtain ⟨p, hp, rfl⟩ := List.mem_map.mp hr
  simpa using (List.mem_filter.mp hp).2

omit [Root ℚ] in
theorem weigh_likely (hn : d.Weighed) {ps : List Path}
    (inside : ∀ p ∈ ps, inRange d.states p = true) (f : ℚ → ℚ) :
    weigh f (likely d ps) = (ps.map fun p => f (d.utility p) * d.weight p).sum := by
  rw [weigh, likely, List.map_map]
  refine sum_map_filter fun p hp none => ?_
  have weightless : d.weight p = 0 :=
    le_antisymm (not_lt.mp (by simpa using none)) (hn.weight_nonneg (inside p hp))
  rw [Function.comp_apply, weightless, mul_zero]

omit [Root ℚ] in
/-- The distribution under a strategy, where the compatible paths of positive probability have a
utility. -/
theorem ofStrategy_eq_ok (hn : d.Weighed) {ps : List Path}
    (run : σ.compatiblePaths d .empty = .ok ps) (inside : ∀ p ∈ ps, inRange d.states p = true)
    (valued : ∀ p ∈ ps, d.weight p ≠ 0 → d.rawPathUtility p = .ok (finite (d.utility p))) :
    ofStrategy d σ = .ok (ofPoints (lift (likely d ps))) := by
  have outcomes : (ps.filterMapM fun p => do
      let probability ← d.probabilityOf p
      if 0 < probability then pure (some (← d.rawPathUtility p, probability)) else pure none) =
        (.ok (lift (likely d ps)) : Except (DiagramError Exact) _) := by
    rw [except_filterMapM_eq_ok (g := fun p => if 0 < d.weight p then
      some (finite (d.utility p), finite (d.weight p)) else none) fun p hp => ?_,
      filterMap_ite, likely, lift, List.map_map]
    · rfl
    · rw [hn.probabilityOf_eq (inside p hp)]
      by_cases weight : 0 < d.weight p
      · have above : (0 : Exact) < finite (d.weight p) := weight
        simp only [bind, Except.bind, if_pos above, if_pos weight, valued p hp weight.ne']
        rfl
      · have above : ¬ (0 : Exact) < finite (d.weight p) := weight
        simp only [bind, Except.bind, if_neg above, if_neg weight]
        rfl
  have generated : d.isGenerated = true := by
    rw [Diagram.isGenerated, hn.generated]
    rfl
  unfold ofStrategy
  simp only [generated, Bool.not_true, Bool.false_eq_true, if_false]
  rw [σ.collect_eq run, outcomes]
  rfl

omit [Root ℚ] in
/-- The distribution under a strategy, where the paths of positive probability that follow have a
utility: its probabilities sum to one, and the weighted utilities to the expected utility. -/
theorem exists_points_ofStrategy (covers : σ.Covers d) (hn : d.Normalized)
    (valued : ∀ p, inRange d.states p = true → σ.Follows d p → d.weight p ≠ 0 →
      d.rawPathUtility p = .ok (finite (d.utility p))) :
    ∃ x points, ofStrategy d σ = .ok x ∧ x.points = lift points ∧
      points.Pairwise (fun a b => a.1 < b.1) ∧ (∀ r ∈ points, 0 < r.2) ∧
      massOf points = 1 ∧ weighted points = σ.expectation d := by
  obtain ⟨ps, run, -, member⟩ := covers.compatiblePaths_eq_ok hn.arranged hn.assembled
  have inside : ∀ p ∈ ps, inRange d.states p = true := fun p hp => ((member p).mp hp).1
  obtain ⟨merged, eq, weights, ascending, positive⟩ := ofPoints_eq (pos_of_mem_likely d ps)
  refine ⟨_, merged, ofStrategy_eq_ok hn.weighed run inside fun p hp =>
    valued p (inside p hp) ((member p).mp hp).2, eq, ascending, positive, ?_, ?_⟩
  · rw [massOf_eq_weigh, weights, weigh_likely hn.weighed inside]
    simp only [one_mul]
    exact (covers.sum_compatiblePaths hn run d.weight).trans (sum_weight_followers hn covers)
  · rw [show weighted merged = weigh id merged from rfl, weights, weigh_likely hn.weighed inside,
      Strategy.expectation, run]
    exact congrArg List.sum (List.map_congr_left fun p _ => mul_comm _ _)

/-- The mean of the distribution under a strategy is its expected utility, where the paths of
positive probability that follow have a utility. -/
theorem mean_ofStrategy (covers : σ.Covers d) (hn : d.Normalized)
    (valued : ∀ p, inRange d.states p = true → σ.Follows d p → d.weight p ≠ 0 →
      d.rawPathUtility p = .ok (finite (d.utility p))) :
    ∃ x m, ofStrategy d σ = .ok x ∧ x.moments = .ok m ∧
      m.mean = finite (σ.expectation d) := by
  obtain ⟨x, points, run, eq, -, positive, mass, sum⟩ := exists_points_ofStrategy covers hn valued
  obtain ⟨m, moments, mean⟩ := moments_eq eq positive (by rw [mass]; exact one_pos)
  refine ⟨x, m, run, moments, ?_⟩
  rw [mean, mass, div_one, sum]

end Distribution

end Influence
