import Mathlib.Algebra.Order.BigOperators.Group.List
import Mathlib.Data.List.Sort
import Mathlib.Tactic.Ring
import Influence.Outcome.Distribution
import Influence.Proofs.Exact

/-!
# Merging weighted utilities

Weighted utilities are sorted by one order and put together by another.  Where the first refines
the second (`Ranking`), what comes of it is told by the points alone (`Merges.mem_iff`): of the
utilities that are put together the first one stands, with the mass of them all.
-/

namespace Influence

open Extended

namespace Distribution

variable {ι υ κ : Type} [Scalar υ] [LinearOrder κ] {place : ι → υ} {position rank : ι → κ}

/-- How utilities are sorted and put together: sorted by position, and put together where their
rank is one. -/
structure Ranking (place : ι → υ) (position rank : ι → κ) : Prop where
  sorts : ∀ a b, Scalar.totalLe (place a) (place b) = decide (position a ≤ position b)
  joins : ∀ a b, (place a == place b) = decide (rank a = rank b)
  injective : Function.Injective position
  refines : ∀ a b, position a ≤ position b → rank a ≤ rank b

/-- Points at their places, with exact probabilities. -/
def placed (place : ι → υ) (points : List (ι × ℚ)) : List (υ × Exact) :=
  points.map fun r => (place r.1, finite r.2)

/-- The points of positive probability. -/
def kept (points : List (ι × ℚ)) : List (ι × ℚ) := points.filter fun r => decide (0 < r.2)

theorem pos_of_mem_kept {points : List (ι × ℚ)} : ∀ r ∈ kept points, 0 < r.2 :=
  fun _ hr => of_decide_eq_true (List.mem_filter.mp hr).2

/-! ## Weights by rank -/

/-- The sum of a function of the rank, weighted with the probabilities. -/
def weightOf (rank : ι → κ) (f : κ → ℚ) (points : List (ι × ℚ)) : ℚ :=
  (points.map fun r => f (rank r.1) * r.2).sum

/-- The sum of the probabilities at a rank. -/
def massAt (rank : ι → κ) (k : κ) (points : List (ι × ℚ)) : ℚ :=
  weightOf rank (fun l => if l = k then 1 else 0) points

omit [LinearOrder κ] in
theorem weightOf_cons (rank : ι → κ) (f : κ → ℚ) (r : ι × ℚ) (points : List (ι × ℚ)) :
    weightOf rank f (r :: points) = f (rank r.1) * r.2 + weightOf rank f points :=
  rfl

omit [LinearOrder κ] in
theorem weightOf_perm (f : κ → ℚ) {points others : List (ι × ℚ)} (same : points.Perm others) :
    weightOf rank f points = weightOf rank f others :=
  (same.map _).sum_eq

theorem massAt_cons (rank : ι → κ) (k : κ) (r : ι × ℚ) (points : List (ι × ℚ)) :
    massAt rank k (r :: points) = (if rank r.1 = k then r.2 else 0) + massAt rank k points := by
  rw [massAt, weightOf_cons, ite_mul, one_mul, zero_mul]
  rfl

theorem massAt_eq_zero {points : List (ι × ℚ)} {k : κ} (none : ∀ r ∈ points, rank r.1 ≠ k) :
    massAt rank k points = 0 := by
  refine List.sum_eq_zero fun x hx => ?_
  obtain ⟨r, hr, rfl⟩ := List.mem_map.mp hx
  exact mul_eq_zero_of_left (if_neg (none r hr)) _

theorem massAt_nonneg {points : List (ι × ℚ)} (pos : ∀ r ∈ points, 0 < r.2) (k : κ) :
    0 ≤ massAt rank k points := by
  refine List.sum_nonneg fun x hx => ?_
  obtain ⟨r, hr, rfl⟩ := List.mem_map.mp hx
  dsimp only
  split
  · rw [one_mul]
    exact (pos r hr).le
  · rw [zero_mul]

/-- A rank has mass where it occurs. -/
theorem massAt_pos_iff {points : List (ι × ℚ)} (pos : ∀ r ∈ points, 0 < r.2) (k : κ) :
    0 < massAt rank k points ↔ ∃ r ∈ points, rank r.1 = k := by
  induction points with
  | nil => simp [massAt, weightOf]
  | cons r points ih =>
    obtain ⟨first, rest⟩ := List.forall_mem_cons.mp pos
    rw [massAt_cons, List.exists_mem_cons_iff, ← ih rest]
    by_cases same : rank r.1 = k
    · rw [if_pos same]
      exact iff_of_true (add_pos_of_pos_of_nonneg first (massAt_nonneg rest k)) (.inl same)
    · rw [if_neg same, zero_add, or_iff_right same]

/-- Where each rank occurs once, a probability is the mass of its rank. -/
theorem massAt_of_mem {points : List (ι × ℚ)}
    (ascending : points.Pairwise fun a b => rank a.1 < rank b.1) {r : ι × ℚ} (hr : r ∈ points) :
    massAt rank (rank r.1) points = r.2 := by
  induction points with
  | nil => cases hr
  | cons first points ih =>
    obtain ⟨above, ascending⟩ := List.pairwise_cons.mp ascending
    rw [massAt_cons]
    rcases List.mem_cons.mp hr with rfl | hr
    · rw [if_pos rfl, massAt_eq_zero fun a ha => (above a ha).ne', add_zero]
    · rw [if_neg (above r hr).ne, zero_add, ih ascending hr]

/-! ## What is listed -/

/-- The first of the utilities of its rank. -/
structure IsFirst (position rank : ι → κ) (points : List (ι × ℚ)) (a : ι) : Prop where
  given : ∃ r ∈ points, r.1 = a
  least : ∀ r ∈ points, rank r.1 = rank a → position a ≤ position r.1

theorem isFirst_congr {points others : List (ι × ℚ)} {a : ι}
    (given : ∀ a, (∃ r ∈ points, r.1 = a) ↔ ∃ r ∈ others, r.1 = a) :
    IsFirst position rank points a ↔ IsFirst position rank others a := by
  have transfer {points others : List (ι × ℚ)} (h : IsFirst position rank points a)
      (given : ∀ a, (∃ r ∈ points, r.1 = a) ↔ ∃ r ∈ others, r.1 = a) :
      IsFirst position rank others a := by
    refine ⟨(given a).mp h.given, fun r hr same => ?_⟩
    obtain ⟨q, hq, eq⟩ := (given r.1).mpr ⟨r, hr, rfl⟩
    rw [← eq] at same ⊢
    exact h.least q hq same
  exact ⟨fun h => transfer h given, fun h => transfer h fun a => (given a).symm⟩

/-- Points put together: the ranks ascend, each with the mass it had, and each under the first of
its utilities. -/
structure Merges (position rank : ι → κ) (points merged : List (ι × ℚ)) : Prop where
  ascending : merged.Pairwise fun a b => rank a.1 < rank b.1
  positive : ∀ r ∈ merged, 0 < r.2
  weights : ∀ f, weightOf rank f merged = weightOf rank f points
  first : ∀ r ∈ merged, IsFirst position rank points r.1

namespace Merges

variable {points others merged : List (ι × ℚ)} {u v : ι} {s p : ℚ}

theorem nil : Merges position rank [] [] where
  ascending := .nil
  positive _ hr := nomatch hr
  weights _ := rfl
  first _ hr := nomatch hr

theorem singleton (hs : 0 < s) : Merges position rank [(u, s)] [(u, s)] where
  ascending := List.pairwise_singleton _ _
  positive := List.forall_mem_singleton.mpr hs
  weights _ := rfl
  first r hr := by
    cases List.mem_singleton.mp hr
    exact ⟨⟨_, hr, rfl⟩, List.forall_mem_singleton.mpr fun _ => le_rfl⟩

/-- A utility put together with the one before it. -/
theorem join (same : rank u = rank v) (before : position u ≤ position v)
    (h : Merges position rank ((u, s + p) :: points) merged) :
    Merges position rank ((u, s) :: (v, p) :: points) merged where
  ascending := h.ascending
  positive := h.positive
  weights f := by
    rw [h.weights, weightOf_cons, weightOf_cons, weightOf_cons, same]
    ring
  first r hr := by
    obtain ⟨given, least⟩ := h.first r hr
    obtain ⟨leader, rest⟩ := List.forall_mem_cons.mp least
    refine ⟨?_, List.forall_mem_cons.mpr ⟨leader, List.forall_mem_cons.mpr ⟨fun equal => ?_, rest⟩⟩⟩
    · obtain ⟨q, hq, eq⟩ := given
      rcases List.mem_cons.mp hq with rfl | hq
      · exact ⟨(u, s), List.mem_cons_self, eq⟩
      · exact ⟨q, List.mem_cons_of_mem _ (List.mem_cons_of_mem _ hq), eq⟩
    · exact (leader (same.trans equal)).trans before

/-- A utility before all others. -/
theorem cons (hs : 0 < s) (before : ∀ r ∈ points, position u ≤ position r.1)
    (below : ∀ r ∈ points, rank u < rank r.1) (h : Merges position rank points merged) :
    Merges position rank ((u, s) :: points) ((u, s) :: merged) where
  ascending := by
    refine List.pairwise_cons.mpr ⟨fun r hr => ?_, h.ascending⟩
    obtain ⟨q, hq, eq⟩ := (h.first r hr).given
    rw [← eq]
    exact below q hq
  positive := List.forall_mem_cons.mpr ⟨hs, h.positive⟩
  weights f := by rw [weightOf_cons, weightOf_cons, h.weights]
  first := by
    refine List.forall_mem_cons.mpr ⟨⟨⟨_, List.mem_cons_self, rfl⟩, ?_⟩, fun r hr => ?_⟩
    · exact List.forall_mem_cons.mpr ⟨fun _ => le_rfl, fun q hq _ => before q hq⟩
    · obtain ⟨⟨q, hq, eq⟩, least⟩ := h.first r hr
      refine ⟨⟨q, List.mem_cons_of_mem _ hq, eq⟩, List.forall_mem_cons.mpr ⟨fun same => ?_, least⟩⟩
      exact absurd same (eq ▸ below q hq).ne

theorem perm (h : Merges position rank points merged) (same : points.Perm others) :
    Merges position rank others merged where
  ascending := h.ascending
  positive := h.positive
  weights f := (h.weights f).trans (weightOf_perm f same)
  first r hr := by
    obtain ⟨⟨q, hq, eq⟩, least⟩ := h.first r hr
    exact ⟨⟨q, same.mem_iff.mp hq, eq⟩, fun a ha => least a (same.mem_iff.mpr ha)⟩

theorem massAt_eq (h : Merges position rank points merged) (k : κ) :
    massAt rank k merged = massAt rank k points :=
  h.weights _

/-- The ranks that are listed are those that are given. -/
theorem exists_rank_iff (h : Merges position rank points merged) (pos : ∀ r ∈ points, 0 < r.2)
    (k : κ) : (∃ r ∈ merged, rank r.1 = k) ↔ ∃ r ∈ points, rank r.1 = k := by
  rw [← massAt_pos_iff h.positive, h.massAt_eq, massAt_pos_iff pos]

/-- What is listed: the first utility of each rank, with the mass of the rank. -/
theorem mem_iff (injective : Function.Injective position)
    (h : Merges position rank points merged) (pos : ∀ r ∈ points, 0 < r.2) {r : ι × ℚ} :
    r ∈ merged ↔ IsFirst position rank points r.1 ∧ massAt rank (rank r.1) points = r.2 := by
  refine ⟨fun hr => ⟨h.first r hr, ?_⟩, fun ⟨⟨given, least⟩, mass⟩ => ?_⟩
  · rw [← h.massAt_eq, massAt_of_mem h.ascending hr]
  · obtain ⟨q, hq, eq⟩ := given
    obtain ⟨m, hm, same⟩ := (h.exists_rank_iff pos (rank r.1)).mpr ⟨q, hq, by rw [eq]⟩
    obtain ⟨⟨q', hq', eq'⟩, least'⟩ := h.first m hm
    have above : position m.1 ≤ position r.1 := eq ▸ least' q hq (by rw [eq, same])
    have below : position r.1 ≤ position m.1 := eq' ▸ least q' hq' (by rw [eq', same])
    have utility : m.1 = r.1 := injective (above.antisymm below)
    have probability : m.2 = r.2 := by
      rw [← massAt_of_mem h.ascending hm, same, h.massAt_eq, mass]
    rwa [← Prod.ext utility probability]

/-- The ranks and the masses alone tell what is listed, up to the choice of the utilities. -/
theorem forall₂ (h : Merges position rank points merged) {listed : List (ι × ℚ)}
    (h' : Merges position rank others listed)
    (mass : ∀ k, massAt rank k points = massAt rank k others) :
    List.Forall₂ (fun a b => rank a.1 = rank b.1 ∧ a.2 = b.2) merged listed := by
  have irreflexive : Std.Irrefl fun a b : κ × ℚ => a.1 < b.1 := ⟨fun a => lt_irrefl a.1⟩
  have antisymmetric : Std.Antisymm fun a b : κ × ℚ => a.1 < b.1 :=
    ⟨fun _ _ below above => absurd below above.not_gt⟩
  have member {points merged : List (ι × ℚ)} (h : Merges position rank points merged)
      (r : κ × ℚ) : r ∈ merged.map (fun r => (rank r.1, r.2)) ↔
        0 < r.2 ∧ massAt rank r.1 points = r.2 := by
    rw [List.mem_map, ← h.massAt_eq]
    refine ⟨fun ⟨m, hm, eq⟩ => ?_, fun ⟨pos, mass⟩ => ?_⟩
    · subst eq
      exact ⟨h.positive m hm, massAt_of_mem h.ascending hm⟩
    · obtain ⟨m, hm, same⟩ := (massAt_pos_iff h.positive r.1).mp (mass ▸ pos)
      rw [← same, massAt_of_mem h.ascending hm] at mass
      exact ⟨m, hm, Prod.ext same mass⟩
  have same : merged.map (fun r => (rank r.1, r.2)) = listed.map fun r => (rank r.1, r.2) := by
    refine List.Pairwise.eq_of_mem_iff (r := fun a b : κ × ℚ => a.1 < b.1)
      (List.pairwise_map.mpr h.ascending) (List.pairwise_map.mpr h'.ascending) fun r => ?_
    rw [member h, member h', mass]
  rw [← List.forall₂_eq_eq_eq, List.forall₂_map_left_iff, List.forall₂_map_right_iff] at same
  exact same.imp fun _ _ eq => Prod.mk.inj eq

/-- The given utilities and the masses tell what is listed. -/
theorem unique (injective : Function.Injective position)
    (h : Merges position rank points merged) (pos : ∀ r ∈ points, 0 < r.2)
    {listed : List (ι × ℚ)} (h' : Merges position rank others listed)
    (pos' : ∀ r ∈ others, 0 < r.2) (given : ∀ a, (∃ r ∈ points, r.1 = a) ↔ ∃ r ∈ others, r.1 = a)
    (mass : ∀ k, massAt rank k points = massAt rank k others) : merged = listed := by
  have irreflexive : Std.Irrefl fun a b : ι × ℚ => rank a.1 < rank b.1 := ⟨fun a => lt_irrefl _⟩
  have antisymmetric : Std.Antisymm fun a b : ι × ℚ => rank a.1 < rank b.1 :=
    ⟨fun _ _ below above => absurd below above.not_gt⟩
  refine h.ascending.eq_of_mem_iff h'.ascending fun r => ?_
  rw [h.mem_iff injective pos, h'.mem_iff injective pos', isFirst_congr given, mass]

/-- What is listed is put together already. -/
theorem refl (h : Merges position rank points merged) :
    Merges position rank merged merged where
  ascending := h.ascending
  positive := h.positive
  weights _ := rfl
  first r hr := by
    refine ⟨⟨r, hr, rfl⟩, fun q hq same => ?_⟩
    obtain ⟨q', hq', eq⟩ := (h.first q hq).given
    rw [← eq] at same ⊢
    exact (h.first r hr).least q' hq' same

end Merges

/-! ## What merging lists -/

private theorem empty_add_finite (p : ℚ) :
    (Mass.empty : Mass Exact).add (finite p) = ⟨finite p, finite 0⟩ := by
  have := mass_add_finite 0 p
  rwa [zero_add] at this

theorem Ranking.exists_go (h : Ranking place position rank) {u : ι} {s : ℚ} {rest : List (ι × ℚ)}
    (hs : 0 < s) (sorted : ((u, s) :: rest).Pairwise fun a b => position a.1 ≤ position b.1)
    (pos : ∀ r ∈ rest, 0 < r.2) : ∃ merged,
      merge.go (place u) ⟨finite s, finite 0⟩ (placed place rest) = placed place merged ∧
        Merges position rank ((u, s) :: rest) merged := by
  induction rest generalizing u s with
  | nil => exact ⟨[(u, s)], by simp [placed, merge.go, Mass.value], .singleton hs⟩
  | cons r rest ih =>
    obtain ⟨v, p⟩ := r
    obtain ⟨hp, rest_pos⟩ := List.forall_mem_cons.mp pos
    obtain ⟨before, sorted⟩ := List.pairwise_cons.mp sorted
    have unfolded : merge.go (place u) ⟨finite s, finite 0⟩ (placed place ((v, p) :: rest)) =
        if rank u = rank v then merge.go (place u) ⟨finite (s + p), finite 0⟩ (placed place rest)
        else (place u, finite s) ::
          merge.go (place v) ⟨finite p, finite 0⟩ (placed place rest) := by
      change (if place u == place v then merge.go (place u)
          ((Mass.mk (finite s) (finite 0) : Mass Exact).add (finite p)) (placed place rest)
        else (place u, (Mass.mk (finite s) (finite 0) : Mass Exact).value) ::
          merge.go (place v) ((Mass.empty : Mass Exact).add (finite p)) (placed place rest)) = _
      rw [mass_add_finite, empty_add_finite, h.joins]
      simp [Mass.value]
    rw [unfolded]
    split
    case isTrue same =>
      obtain ⟨merged, eq, merges⟩ := ih (add_pos hs hp)
        (List.pairwise_cons.mpr ⟨fun r hr => before r (List.mem_cons_of_mem _ hr),
          (List.pairwise_cons.mp sorted).2⟩) rest_pos
      exact ⟨merged, eq, merges.join same (before _ List.mem_cons_self)⟩
    case isFalse other =>
      obtain ⟨merged, eq, merges⟩ := ih hp sorted rest_pos
      have above : ∀ r ∈ (v, p) :: rest, rank v ≤ rank r.1 :=
        List.forall_mem_cons.mpr ⟨le_rfl,
          fun r hr => h.refines _ _ ((List.pairwise_cons.mp sorted).1 r hr)⟩
      have less : rank u < rank v :=
        lt_of_le_of_ne (h.refines _ _ (before _ List.mem_cons_self)) other
      refine ⟨(u, s) :: merged, by rw [eq]; rfl, merges.cons hs before fun r hr => ?_⟩
      exact less.trans_le (above r hr)

theorem Ranking.exists_merge (h : Ranking place position rank) {points : List (ι × ℚ)}
    (sorted : points.Pairwise fun a b => position a.1 ≤ position b.1)
    (pos : ∀ r ∈ points, 0 < r.2) : ∃ merged,
      merge (placed place points) = placed place merged ∧ Merges position rank points merged := by
  cases points with
  | nil => exact ⟨[], rfl, .nil⟩
  | cons r rest =>
    obtain ⟨hp, rest_pos⟩ := List.forall_mem_cons.mp pos
    obtain ⟨merged, eq, merges⟩ := h.exists_go hp sorted rest_pos
    refine ⟨merged, ?_, merges⟩
    rw [← eq, ← empty_add_finite]
    rfl

/-- What points are collected to. -/
theorem Ranking.exists_collect (h : Ranking place position rank) (points : List (ι × ℚ)) :
    ∃ merged, collect (placed place points) = placed place merged ∧
      Merges position rank (kept points) merged := by
  have sorted : ((kept points).mergeSort fun a b => decide (position a.1 ≤ position b.1)).Pairwise
      fun a b => position a.1 ≤ position b.1 := by
    refine List.Pairwise.imp of_decide_eq_true (List.pairwise_mergeSort (fun a b c hab hbc => ?_)
      (fun a b => ?_) (kept points))
    · exact decide_eq_true ((of_decide_eq_true hab).trans (of_decide_eq_true hbc))
    · simpa using le_total (position a.1) (position b.1)
  have same := List.mergeSort_perm (kept points) fun a b => decide (position a.1 ≤ position b.1)
  have lifted : ((placed place points).filter fun r => decide (0 < r.2)).mergeSort
      (fun a b => Scalar.totalLe a.1 b.1) =
        placed place ((kept points).mergeSort fun a b => decide (position a.1 ≤ position b.1)) := by
    rw [show (placed place points).filter (fun r => decide (0 < r.2)) =
      placed place (kept points) from List.filter_map]
    exact (List.map_mergeSort fun a _ b _ => (h.sorts a.1 b.1).symm).symm
  obtain ⟨merged, eq, merges⟩ := h.exists_merge sorted fun r hr =>
    pos_of_mem_kept r (same.mem_iff.mp hr)
  refine ⟨merged, ?_, merges.perm same⟩
  rw [← eq, ← lifted]
  rfl

/-! ## What the list depends on -/

variable {points others merged : List (ι × ℚ)}

theorem kept_append (points others : List (ι × ℚ)) :
    kept (points ++ others) = kept points ++ kept others :=
  List.filter_append _ _

theorem massAt_append (k : κ) (points others : List (ι × ℚ)) :
    massAt rank k (points ++ others) = massAt rank k points + massAt rank k others := by
  rw [massAt, weightOf, List.map_append, List.sum_append]
  rfl

/-- What is listed stays as it is when it is collected again. -/
theorem Ranking.collect_placed (h : Ranking place position rank)
    (merges : Merges position rank points merged) :
    collect (placed place merged) = placed place merged := by
  obtain ⟨again, eq, merges'⟩ := h.exists_collect merged
  have all : kept merged = merged :=
    List.filter_eq_self.mpr fun r hr => decide_eq_true (merges.positive r hr)
  rw [all] at merges'
  rw [eq, merges'.unique h.injective merges.positive merges.refl merges.positive
    (fun _ => Iff.rfl) fun _ => rfl]

/-- What is listed does not depend on the order of the points. -/
theorem Ranking.collect_perm (h : Ranking place position rank) (same : others.Perm points) :
    collect (placed place others) = collect (placed place points) := by
  obtain ⟨listed, eq, merges⟩ := h.exists_collect points
  obtain ⟨listed', eq', merges'⟩ := h.exists_collect others
  have moved := merges'.perm (same.filter _)
  rw [eq, eq', moved.unique h.injective pos_of_mem_kept merges pos_of_mem_kept
    (fun _ => Iff.rfl) fun _ => rfl]

/-- The mass a point gives to its utility: its probability, where that is positive. -/
def gives (r : ι × ℚ) : ℚ := max r.2 0

/-- Points into which one is split: they have its utility, and give it in all what it gives. -/
structure IsSplit (rank : ι → κ) (r : ι × ℚ) (parts : List (ι × ℚ)) : Prop where
  utility : ∀ q ∈ parts, rank q.1 = rank r.1
  mass : (parts.map gives).sum = gives r

theorem massAt_kept (k : κ) (points : List (ι × ℚ)) : massAt rank k (kept points) =
    (points.map fun r => if rank r.1 = k then gives r else 0).sum := by
  induction points with
  | nil => rfl
  | cons r points ih =>
    rw [List.map_cons, List.sum_cons, ← ih, kept, List.filter_cons]
    by_cases pos : 0 < r.2
    · rw [if_pos (decide_eq_true pos), massAt_cons, gives, max_eq_left pos.le]
      rfl
    · rw [if_neg (by simpa using pos), gives, max_eq_right (not_lt.mp pos), ite_self, zero_add]
      rfl

/-- A split gives each rank the mass that the point gives it. -/
theorem IsSplit.massAt_eq {r : ι × ℚ} {parts : List (ι × ℚ)} (h : IsSplit rank r parts) (k : κ) :
    massAt rank k (kept parts) = massAt rank k (kept [r]) := by
  rw [massAt_kept, massAt_kept, List.map_singleton, List.sum_singleton, ← h.mass]
  by_cases same : rank r.1 = k
  · rw [if_pos same]
    exact congrArg List.sum (List.map_congr_left fun q hq => if_pos ((h.utility q hq).trans same))
  · rw [if_neg same]
    refine List.sum_eq_zero fun x hx => ?_
    obtain ⟨q, hq, rfl⟩ := List.mem_map.mp hx
    exact if_neg (h.utility q hq ▸ same)

/-- Points of one utility give it where they have mass. -/
theorem exists_kept_iff (rank : ι → κ) {u : ι} (one : ∀ q ∈ points, q.1 = u) (a : ι) :
    (∃ q ∈ kept points, q.1 = a) ↔ u = a ∧ 0 < massAt rank (rank u) (kept points) := by
  have one : ∀ q ∈ kept points, q.1 = u := fun q hq => one q (List.mem_filter.mp hq).1
  rw [massAt_pos_iff pos_of_mem_kept]
  refine ⟨fun ⟨q, hq, eq⟩ => ?_, fun ⟨same, q, hq, _⟩ => ⟨q, hq, (one q hq).trans same⟩⟩
  exact ⟨(one q hq).symm.trans eq, q, hq, by rw [one q hq]⟩

/-- Splitting a point moves no mass.  Only the choice between utilities of one rank may change, and
that stays where the parts have the very utility of the point. -/
theorem Ranking.collect_split (h : Ranking place position rank) {before after : List (ι × ℚ)}
    {r : ι × ℚ} {parts : List (ι × ℚ)} (split : IsSplit rank r parts)
    (merges : Merges position rank (kept (before ++ r :: after)) merged) :
    ∃ listed, collect (placed place (before ++ parts ++ after)) = placed place listed ∧
      List.Forall₂ (fun a b => rank a.1 = rank b.1 ∧ a.2 = b.2) listed merged ∧
      ((∀ q ∈ parts, q.1 = r.1) → listed = merged) := by
  obtain ⟨listed, eq, merges'⟩ := h.exists_collect (before ++ parts ++ after)
  have apart : kept (before ++ r :: after) = kept before ++ kept [r] ++ kept after := by
    rw [← kept_append, ← kept_append, List.append_assoc, List.singleton_append]
  rw [apart] at merges
  rw [kept_append, kept_append] at merges'
  have mass (k : κ) : massAt rank k (kept before ++ kept parts ++ kept after) =
      massAt rank k (kept before ++ kept [r] ++ kept after) := by
    rw [massAt_append, massAt_append, massAt_append, massAt_append, split.massAt_eq]
  refine ⟨listed, eq, merges'.forall₂ merges mass, fun one => ?_⟩
  have positive (middle : List (ι × ℚ)) :
      ∀ q ∈ kept before ++ kept middle ++ kept after, 0 < q.2 := by
    rw [← kept_append, ← kept_append]
    exact pos_of_mem_kept
  refine merges'.unique h.injective (positive _) merges (positive _) (fun a => ?_) mass
  have middle : (∃ q ∈ kept parts, q.1 = a) ↔ ∃ q ∈ kept [r], q.1 = a := by
    rw [exists_kept_iff rank one, exists_kept_iff rank (List.forall_mem_singleton.mpr rfl),
      split.massAt_eq]
  simp only [List.mem_append, or_and_right, exists_or, middle]

end Distribution

end Influence
