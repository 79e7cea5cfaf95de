import Mathlib.Algebra.Order.BigOperators.Group.List
import Mathlib.Data.List.Sort
import Influence.Proofs.Distribution

/-!
# What a distribution lists

A distribution lists each utility once, ascending, with a positive probability
(`isListing_of_ofPoints`), and the weights of the functions of the utility say what it lists
(`IsListing.ofPoints_eq`).  So whatever is put together from the same weights in any order is one
distribution.
-/

namespace Influence

open Extended

namespace Distribution

/-! ## Weights -/

variable {points : List (ℚ × ℚ)} {f g : ℚ → ℚ}

theorem weigh_le (pos : ∀ r ∈ points, 0 < r.2) (h : ∀ r ∈ points, f r.1 ≤ g r.1) :
    weigh f points ≤ weigh g points := by
  refine List.sum_le_sum fun r hr => ?_
  exact mul_le_mul_of_nonneg_right (h r hr) (pos r hr).le

theorem weigh_nonneg (pos : ∀ r ∈ points, 0 < r.2) (nonneg : ∀ u, 0 ≤ f u) :
    0 ≤ weigh f points := by
  refine List.sum_nonneg fun x hx => ?_
  obtain ⟨r, hr, rfl⟩ := List.mem_map.mp hx
  exact mul_nonneg (nonneg r.1) (pos r hr).le

theorem weigh_eq_zero (zero : ∀ r ∈ points, f r.1 = 0) : weigh f points = 0 := by
  refine List.sum_eq_zero fun x hx => ?_
  obtain ⟨r, hr, rfl⟩ := List.mem_map.mp hx
  exact mul_eq_zero_of_left (zero r hr) _

theorem weigh_add (points : List (ℚ × ℚ)) (f g : ℚ → ℚ) :
    weigh (fun u => f u + g u) points = weigh f points + weigh g points := by
  rw [weigh, weigh, weigh, ← List.sum_map_add]
  simp only [add_mul]

theorem weigh_mul_left (points : List (ℚ × ℚ)) (f : ℚ → ℚ) (c : ℚ) :
    weigh (fun u => c * f u) points = c * weigh f points := by
  rw [weigh, weigh, ← List.sum_map_mul_left]
  simp only [mul_assoc]

theorem weigh_map (points : List (ℚ × ℚ)) (f g : ℚ → ℚ) :
    weigh f (points.map fun r => (g r.1, r.2)) = weigh (fun u => f (g u)) points := by
  rw [weigh, List.map_map]
  rfl

/-- A utility has weight where it occurs. -/
theorem weigh_pos_iff (pos : ∀ r ∈ points, 0 < r.2) (u : ℚ) :
    0 < weigh (fun v => if v = u then 1 else 0) points ↔ ∃ r ∈ points, r.1 = u := by
  change 0 < massAt id u points ↔ _
  exact massAt_pos_iff pos u

/-! ## Listings -/

/-- Points of a distribution: each utility once, ascending, with a positive probability. -/
structure IsListing (points : List (ℚ × ℚ)) : Prop where
  ascending : points.Pairwise fun a b => a.1 < b.1
  positive : ∀ r ∈ points, 0 < r.2

namespace IsListing

variable {points : List (ℚ × ℚ)} {r : ℚ × ℚ} {u v w : ℚ}

theorem tail (h : IsListing (r :: points)) : IsListing points :=
  ⟨(List.pairwise_cons.mp h.ascending).2, fun q hq => h.positive q (List.mem_cons_of_mem _ hq)⟩

theorem lt_of_mem (h : IsListing (r :: points)) : ∀ q ∈ points, r.1 < q.1 :=
  (List.pairwise_cons.mp h.ascending).1

/-- The weights of the functions of the utility tell listings apart. -/
theorem eq_of_weigh (h : IsListing points) {others : List (ℚ × ℚ)} (h' : IsListing others)
    (weights : ∀ f, weigh f points = weigh f others) : points = others := by
  have irreflexive : Std.Irrefl fun a b : ℚ × ℚ => a.1 < b.1 := ⟨fun a => lt_irrefl a.1⟩
  have antisymmetric : Std.Antisymm fun a b : ℚ × ℚ => a.1 < b.1 :=
    ⟨fun _ _ below above => absurd below above.not_gt⟩
  refine h.ascending.eq_of_mem_iff h'.ascending fun r => ?_
  rw [mem_iff_weigh h.ascending h.positive, mem_iff_weigh h'.ascending h'.positive, weights]

end IsListing

/-! ## Distributions -/

theorem lift_injective : Function.Injective lift :=
  List.map_injective_iff.mpr fun r q same => by
    obtain ⟨first, second⟩ := Prod.mk.inj same
    exact Prod.ext (finite.inj first) (finite.inj second)

/-- Outcomes without probability play no part. -/
theorem ofPoints_filter (given : List (ℚ × ℚ)) :
    ofPoints (lift (given.filter fun r => decide (0 < r.2))) = ofPoints (lift given) := by
  have kept : (lift given).filter (fun r => decide (0 < r.2)) =
      lift (given.filter fun r => decide (0 < r.2)) := List.filter_map
  change Distribution.mk (merge (((lift _).filter fun r => decide (0 < r.2)).mergeSort _)) =
    Distribution.mk (merge (((lift given).filter fun r => decide (0 < r.2)).mergeSort _))
  rw [← kept, List.filter_filter]
  simp only [Bool.and_self]

/-- What a distribution lists: each utility once, ascending, with a positive probability. -/
theorem isListing_of_ofPoints {given points : List (ℚ × ℚ)}
    (listed : (ofPoints (lift given)).points = lift points) : IsListing points := by
  have pos : ∀ r ∈ given.filter (fun r => decide (0 < r.2)), 0 < r.2 :=
    fun r hr => of_decide_eq_true (List.mem_filter.mp hr).2
  obtain ⟨merged, eq, -, ascending, positive⟩ := ofPoints_eq pos
  rw [ofPoints_filter, listed] at eq
  obtain rfl := lift_injective eq
  exact ⟨ascending, positive⟩

/-- Outcomes of the weights of a listing make the distribution that lists it. -/
theorem IsListing.ofPoints_eq {points given : List (ℚ × ℚ)} (h : IsListing points)
    (pos : ∀ r ∈ given, 0 < r.2) (weights : ∀ f, weigh f given = weigh f points) :
    (ofPoints (lift given)).points = lift points := by
  obtain ⟨merged, eq, same, ascending, positive⟩ := Distribution.ofPoints_eq pos
  have merges : IsListing merged := ⟨ascending, positive⟩
  rw [eq, merges.eq_of_weigh h fun f => (same f).trans (weights f)]

/-- Points put where a function takes their utilities, those that meet merged. -/
theorem IsListing.exists_moved {points : List (ℚ × ℚ)} (h : IsListing points) (g : ℚ → ℚ) :
    ∃ moved, (ofPoints (lift (points.map fun r => (g r.1, r.2)))).points = lift moved ∧
      IsListing moved ∧ (∀ f, weigh f moved = weigh (fun u => f (g u)) points) ∧
      ∀ u, (∃ r ∈ moved, r.1 = u) ↔ ∃ r ∈ points, g r.1 = u := by
  have pos : ∀ r ∈ points.map fun r => (g r.1, r.2), 0 < r.2 := fun r hr => by
    obtain ⟨q, hq, rfl⟩ := List.mem_map.mp hr
    exact h.positive q hq
  obtain ⟨moved, eq, same, ascending, positive⟩ := Distribution.ofPoints_eq pos
  refine ⟨moved, eq, ⟨ascending, positive⟩, fun f => (same f).trans (weigh_map points f g),
    fun u => ?_⟩
  rw [← weigh_pos_iff positive u, same, weigh_pos_iff pos u]
  simp only [List.mem_map, exists_exists_and_eq_and]

end Distribution

end Influence
