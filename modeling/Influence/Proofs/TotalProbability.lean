import Mathlib.Algebra.BigOperators.Group.Finset.Basic
import Mathlib.Algebra.BigOperators.Ring.Finset
import Mathlib.Algebra.Order.BigOperators.Group.List
import Mathlib.Algebra.Order.BigOperators.GroupWithZero.Finset
import Influence.Diagram.Evaluation
import Influence.Proofs.Reachable
import Influence.Proofs.Strategies

/-!
# Total probability

In a normalized diagram, a generated one whose probability rows sum to exactly one, the paths
that follow a strategy carry the whole probability mass (`sum_weight_followers`).  The proof
reads a path from the front: what a coordinate contributes depends on the coordinates before
it, and over the states of one coordinate the contributions sum to the total of a row at a
chance node, and to one at a decision node.  Where the totals of the rows lie between two bounds,
the mass lies between their powers (`sum_along_between`, `mass_between`).
-/

namespace Influence

open Extended

namespace Diagram

/-- The probabilities of a chance node's states, given the states of its parents. -/
def row {α : Type} (d : Diagram α) (j : ℕ) (q : List ℕ) : Except (DiagramError α) (List α) :=
  match d.table? j with
  | some t => (List.range (d.states.getD j 0)).mapM fun s => t.entry (q ++ [s])
  | none => .error (.missingProbabilities (d.nameOf j))

/-- A generated diagram whose probability rows each sum to exactly one, and whose utilities are
numbers. -/
structure Normalized (d : Diagram Exact) : Prop where
  reachable : Reachable d
  generated : d.phase = .generated
  rows : ∀ j ∈ d.chance, ∀ q, inRange (d.informationShape j) q = true →
    ∃ row, d.row j q = .ok row ∧ Scalar.sum row = 1
  custom : ∀ f, d.pathUtility = some (.custom f) → ∀ p, Scalar.isFinite (f p) = true

/-- A generated diagram whose probability tables have all their rows. -/
structure Weighed (d : Diagram Exact) : Prop where
  reachable : Reachable d
  generated : d.phase = .generated
  rows : ∀ j ∈ d.chance, ∀ q, inRange (d.informationShape j) q = true → ∃ row, d.row j q = .ok row

/-- Whether the rows of the probability tables sum to one. -/
def hasUnitRows (d : Diagram Exact) : Bool :=
  d.chance.all fun j => (Paths.ofStates (d.informationShape j)).toList.all fun q =>
    (d.row j q).toOption.any fun row => decide (Scalar.sum row = 1)

theorem rows_of_hasUnitRows {d : Diagram Exact} (h : d.hasUnitRows = true) :
    ∀ j ∈ d.chance, ∀ q, inRange (d.informationShape j) q = true →
      ∃ row, d.row j q = .ok row ∧ Scalar.sum row = 1 := by
  intro j hj q hq
  have rows := List.all_eq_true.mp (List.all_eq_true.mp h j hj) q (Paths.mem_toList_ofStates.mpr hq)
  obtain ⟨row, run, sum⟩ := exists_eq_ok_of_any _ rows
  exact ⟨row, run, of_decide_eq_true sum⟩

/-- Whether the utility of a path is the sum of the utilities of the value nodes. -/
def isAdditive (d : Diagram Exact) : Bool :=
  match d.pathUtility with
  | some .additive => true
  | _ => false

theorem pathUtility_of_isAdditive {d : Diagram Exact} (h : d.isAdditive = true) :
    d.pathUtility = some .additive := by
  unfold isAdditive at h
  split at h
  case h_1 additive => exact additive
  case h_2 => cases h

theorem Normalized.of_isAdditive {d : Diagram Exact} (reachable : Reachable d)
    (generated : d.phase = .generated) (rows : d.hasUnitRows = true)
    (additive : d.isAdditive = true) : d.Normalized where
  reachable := reachable
  generated := generated
  rows := rows_of_hasUnitRows rows
  custom f hf := by
    rw [pathUtility_of_isAdditive additive] at hf
    cases hf

/-- The probability of a path, zero where it has none. -/
def weight (d : Diagram Exact) (p : Path) : ℚ := outcome (d.pathProbability p)

/-- The utility of a path without the shift, zero where it has none. -/
def utility (d : Diagram Exact) (p : Path) : ℚ := outcome (d.rawPathUtility p)

/-- The entry of a probability table. -/
def chanceAt (d : Diagram Exact) (j : ℕ) (q : List ℕ) (s : ℕ) : ℚ :=
  ((d.table? j).map fun t => outcome (t.entry (q ++ [s]))).getD 0

theorem Arranged.inRange_informationState {α : Type} {d : Diagram α} (h : Arranged d) {p : Path}
    (hp : inRange d.states p = true) (i : ℕ) :
    inRange (d.informationShape i) (d.informationState i p) = true :=
  inRange_map_getD hp _ fun j hj => (h.parents i j hj).2

/-- The utilities that paths have are numbers, if functions of paths give numbers. -/
theorem isFinite_rawPathUtility {d : Diagram Exact} (stored : Stored d)
    (custom : ∀ f, d.pathUtility = some (.custom f) → ∀ p, Scalar.isFinite (f p) = true) {p : Path}
    {u : Exact} (hu : d.rawPathUtility p = .ok u) : Scalar.isFinite u = true := by
  obtain ⟨_, _, hu⟩ := except_bind_eq_ok.mp hu
  cases hc : d.pathUtility with
  | none =>
    rw [utilityOf, hc] at hu
    cases hu
  | some c =>
    cases c with
    | additive => exact isFinite_utilityOf stored hc hu
    | custom f =>
      rw [utilityOf, hc] at hu
      exact Except.ok.inj hu ▸ custom f hc p

namespace Weighed

variable {d : Diagram Exact}

theorem assembled (h : Weighed d) : d.phase ≠ .building := by
  rw [h.generated]
  decide

theorem arranged (h : Weighed d) : Arranged d := h.reachable.valid.arranged h.assembled

theorem stored (h : Weighed d) : Stored d := h.reachable.valid.stored

/-- What needs the order of the nodes only takes a weighed diagram as well. -/
instance : Coe (Weighed d) (Arranged d) := ⟨arranged⟩

/-- The entries of a row are probabilities. -/
theorem entry_eq (h : Weighed d) {j : ℕ} (hj : j ∈ d.chance) {q : List ℕ}
    (hq : inRange (d.informationShape j) q = true) {s : ℕ} (hs : s < d.states.getD j 0) :
    ∃ t, d.table? j = some t ∧ t.entry (q ++ [s]) = .ok (finite (d.chanceAt j q s)) ∧
      0 ≤ d.chanceAt j q s := by
  obtain ⟨xs, run⟩ := h.rows j hj q hq
  unfold row at run
  split at run
  case h_1 t ht =>
    obtain ⟨x, -, hx⟩ := except_eq_ok_of_mem_mapM run (List.mem_range.mpr hs)
    obtain ⟨r, rfl, hr⟩ := h.stored.probability j hj t ht x (mem_data_of_entry hx)
    have value : d.chanceAt j q s = r := by
      rw [chanceAt, ht, Option.map_some, Option.getD_some, hx]
      rfl
    exact ⟨t, ht, value ▸ hx, value ▸ hr⟩
  case h_2 => cases run

theorem row_eq_ok (h : Weighed d) {j : ℕ} (hj : j ∈ d.chance) {q : List ℕ}
    (hq : inRange (d.informationShape j) q = true) :
    d.row j q = .ok (((List.range (d.states.getD j 0)).map (d.chanceAt j q)).map finite) := by
  obtain ⟨xs, run⟩ := h.rows j hj q hq
  unfold row at run ⊢
  split at run
  case h_1 t ht =>
    rw [List.map_map]
    refine except_mapM_eq_ok_map fun s hs => ?_
    obtain ⟨u, hu, entry, -⟩ := h.entry_eq hj hq (List.mem_range.mp hs)
    rw [ht, Option.some.injEq] at hu
    exact hu ▸ entry
  case h_2 => cases run

/-- The probability of a path in range is the product of its entries. -/
theorem probabilityOf_eq_prod (h : Weighed d) {p : Path} (hp : inRange d.states p = true) :
    d.probabilityOf p = .ok (finite
      (d.chance.map fun j => d.chanceAt j (d.informationState j p) (p.getD j 0)).prod) := by
  have reading : (d.chance.map fun j =>
      finite (d.chanceAt j (d.informationState j p) (p.getD j 0)) : List Exact) =
        (d.chance.map fun j =>
          d.chanceAt j (d.informationState j p) (p.getD j 0)).map finite := by
    rw [List.map_map]
    rfl
  unfold probabilityOf
  rw [except_mapM_eq_ok_map (g := fun j =>
    finite (d.chanceAt j (d.informationState j p) (p.getD j 0))) fun j hj => ?_]
  · rw [reading, ← product_map_finite]
    rfl
  · obtain ⟨t, ht, entry, -⟩ := h.entry_eq hj (h.arranged.inRange_informationState hp j)
      (getD_lt_of_inRange hp (h.arranged.mem_chance_lt hj))
    rw [ht]
    exact entry

theorem checkPath_eq_ok (h : Weighed d) {p : Path} (hp : inRange d.states p = true) :
    d.checkPath p = .ok () := by
  rw [checkPath, if_neg (not_not.mpr h.generated), if_pos hp]

theorem weight_eq_prod (h : Weighed d) {p : Path} (hp : inRange d.states p = true) :
    d.weight p =
      (d.chance.map fun j => d.chanceAt j (d.informationState j p) (p.getD j 0)).prod := by
  rw [weight, pathProbability, h.checkPath_eq_ok hp]
  change outcome (d.probabilityOf p) = _
  rw [h.probabilityOf_eq_prod hp]
  rfl

theorem probabilityOf_eq (h : Weighed d) {p : Path} (hp : inRange d.states p = true) :
    d.probabilityOf p = .ok (finite (d.weight p)) := by
  rw [h.probabilityOf_eq_prod hp, h.weight_eq_prod hp]

theorem weight_nonneg (h : Weighed d) {p : Path} (hp : inRange d.states p = true) :
    0 ≤ d.weight p := by
  rw [h.weight_eq_prod hp]
  refine List.prod_induction (0 ≤ ·) (fun _ _ => mul_nonneg) zero_le_one fun x hx => ?_
  obtain ⟨j, hj, rfl⟩ := List.mem_map.mp hx
  obtain ⟨_, _, _, nonneg⟩ := h.entry_eq hj (h.arranged.inRange_informationState hp j)
    (getD_lt_of_inRange hp (h.arranged.mem_chance_lt hj))
  exact nonneg

end Weighed

namespace Normalized

variable {d : Diagram Exact}

theorem weighed (h : Normalized d) : Weighed d where
  reachable := h.reachable
  generated := h.generated
  rows j hj q hq := (h.rows j hj q hq).imp fun _ => And.left

/-- What needs the rows only takes a normalized diagram as well. -/
instance : Coe (Normalized d) (Weighed d) := ⟨weighed⟩

theorem assembled (h : Normalized d) : d.phase ≠ .building := h.weighed.assembled

theorem arranged (h : Normalized d) : Arranged d := h.weighed.arranged

theorem stored (h : Normalized d) : Stored d := h.weighed.stored

theorem signed (h : Normalized d) : Signed d := h.reachable.valid.signed h.generated

/-- The entries of a row sum to one. -/
theorem sum_chanceAt (h : Normalized d) {j : ℕ} (hj : j ∈ d.chance) {q : List ℕ}
    (hq : inRange (d.informationShape j) q = true) :
    ((List.range (d.states.getD j 0)).map (d.chanceAt j q)).sum = 1 := by
  obtain ⟨xs, run, total⟩ := h.rows j hj q hq
  obtain rfl := Except.ok.inj (run.symm.trans (h.weighed.row_eq_ok hj hq))
  rw [sum_map_finite, one_eq_finite, Extended.finite.injEq] at total
  exact total

theorem weight_le_one (h : Normalized d) {p : Path} (hp : inRange d.states p = true) :
    d.weight p ≤ 1 := by
  rw [h.weighed.weight_eq_prod hp]
  refine (List.prod_induction (fun r : ℚ => 0 ≤ r ∧ r ≤ 1)
    (fun a b ha hb => ⟨mul_nonneg ha.1 hb.1, mul_le_one₀ ha.2 hb.1 hb.2⟩)
    ⟨zero_le_one, le_rfl⟩ fun r hr => ?_).2
  obtain ⟨j, hj, rfl⟩ := List.mem_map.mp hr
  have hq := h.arranged.inRange_informationState hp j
  have entry {s : ℕ} (hs : s < d.states.getD j 0) :
      0 ≤ d.chanceAt j (d.informationState j p) s := by
    obtain ⟨_, _, _, nonneg⟩ := h.weighed.entry_eq hj hq hs
    exact nonneg
  have own := getD_lt_of_inRange hp (h.arranged.mem_chance_lt hj)
  refine ⟨entry own, ?_⟩
  rw [← h.sum_chanceAt hj hq]
  refine List.single_le_sum (List.forall_mem_map.mpr fun s hs => entry (List.mem_range.mp hs)) _ ?_
  exact List.mem_map_of_mem (List.mem_range.mpr own)

/-- A utility that a path has is a number. -/
theorem eq_finite_of_rawPathUtility (h : Normalized d) {p : Path} {u : Exact}
    (hu : d.rawPathUtility p = .ok u) : u = finite (d.utility p) := by
  rw [utility, hu, outcome_ok, finite_rational (isFinite_rawPathUtility h.stored h.custom hu)]

theorem shift_eq (h : Normalized d) : d.shift = finite d.shift.rational :=
  (finite_rational h.signed.shift).symm

theorem shiftedPathUtility_eq_ok (h : Normalized d) {p : Path} {u : Exact}
    (hu : d.shiftedPathUtility p = .ok u) :
    d.rawPathUtility p = .ok (finite (d.utility p)) ∧
      u = finite (d.utility p + d.shift.rational) := by
  obtain ⟨raw, hraw, hu⟩ := except_bind_eq_ok.mp hu
  have value := h.eq_finite_of_rawPathUtility hraw
  refine ⟨value ▸ hraw, ?_⟩
  rw [← except_pure_eq_ok.mp hu, value, ← finite_add, ← h.shift_eq]

end Normalized

end Diagram

/-- The paths of a diagram. -/
def Diagram.paths (d : Diagram Exact) : Finset Path := (Paths.ofStates d.states).toList.toFinset

theorem Diagram.mem_paths {d : Diagram Exact} {p : Path} :
    p ∈ d.paths ↔ inRange d.states p = true := by
  rw [paths, List.mem_toFinset, Paths.mem_toList_ofStates]

/-- The paths that follow a strategy. -/
def Strategy.followers (d : Diagram Exact) (σ : Strategy) : Finset Path :=
  d.paths.filter (σ.Follows d)

theorem Strategy.mem_followers {d : Diagram Exact} {σ : Strategy} {p : Path} :
    p ∈ σ.followers d ↔ inRange d.states p = true ∧ σ.Follows d p := by
  rw [followers, Finset.mem_filter, Diagram.mem_paths]

/-- The expected utility of a strategy: the sum over its compatible paths of probability times
utility without the shift. -/
def Strategy.expectation (d : Diagram Exact) (σ : Strategy) : ℚ :=
  match σ.compatiblePaths d .empty with
  | .ok ps => (ps.map fun p => d.weight p * d.utility p).sum
  | .error _ => 0

/-! ## Reading a path from the front -/

/-- The product of what the coordinates of a path contribute, each given those before it. -/
def along (κ : Path → ℕ → ℚ) : Path → Path → ℚ
  | _, [] => 1
  | front, s :: p => κ front s * along κ (front ++ [s]) p

/-- Where the contributions of every coordinate have sums between given bounds, the products over
the paths have a sum between the products of the bounds. -/
theorem sum_along_between {κ : Path → ℕ → ℚ} {low high : ℕ → ℚ}
    (bounds : ∀ i, 0 ≤ low i ∧ low i ≤ high i) (front : Path) {states : List ℕ}
    (nonneg : ∀ i (hi : i < states.length) q, inRange (states.take i) q = true →
      ∀ s < states[i], 0 ≤ κ (front ++ q) s)
    (between : ∀ i (hi : i < states.length) q, inRange (states.take i) q = true →
      low i ≤ ((List.range states[i]).map (κ (front ++ q))).sum ∧
        ((List.range states[i]).map (κ (front ++ q))).sum ≤ high i) :
    ∏ i ∈ Finset.range states.length, low i ≤
        ((Paths.ofStates states).toList.map (along κ front)).sum ∧
      ((Paths.ofStates states).toList.map (along κ front)).sum ≤
        ∏ i ∈ Finset.range states.length, high i := by
  rw [Paths.toList_ofStates]
  induction states generalizing front low high with
  | nil => simp [Paths.all, along]
  | cons n states ih =>
    have later {i s : ℕ} {q : Path} (hs : s < n) (hq : inRange (states.take i) q = true) :
        inRange ((n :: states).take (i + 1)) (s :: q) = true := by
      rw [List.take_succ_cons, inRange_cons]
      exact ⟨hs, hq⟩
    have tails (s : ℕ) (hs : s < n) := ih (fun i => bounds (i + 1)) (front ++ [s])
      (fun i hi q hq t ht => by
        rw [List.append_assoc]
        exact nonneg (i + 1) (Nat.succ_lt_succ hi) (s :: q) (later hs hq) t ht)
      (fun i hi q hq => by
        rw [List.append_assoc]
        exact between (i + 1) (Nat.succ_lt_succ hi) (s :: q) (later hs hq))
    have first := nonneg 0 (Nat.succ_pos _) [] rfl
    have head := between 0 (Nat.succ_pos _) [] rfl
    simp only [List.getElem_cons_zero, List.append_nil] at first head
    have split : ((Paths.all ((n :: states).map Coordinate.free)).map (along κ front)).sum =
        ((List.range n).map fun s => κ front s *
          ((Paths.all (states.map Coordinate.free)).map (along κ (front ++ [s]))).sum).sum := by
      rw [List.map_cons, Paths.all, List.map_flatMap, List.flatMap_def, List.sum_flatten,
        List.map_map]
      refine congrArg List.sum (List.map_congr_left fun s _ => ?_)
      rw [Function.comp_apply, List.map_map, ← List.sum_map_mul_left]
      rfl
    have lowest : 0 ≤ ∏ i ∈ Finset.range states.length, low (i + 1) :=
      Finset.prod_nonneg fun i _ => (bounds (i + 1)).1
    have highest : 0 ≤ ∏ i ∈ Finset.range states.length, high (i + 1) :=
      Finset.prod_nonneg fun i _ => (bounds (i + 1)).1.trans (bounds (i + 1)).2
    rw [split, List.length_cons, Finset.prod_range_succ', Finset.prod_range_succ']
    constructor
    · calc
        _ ≤ (∏ i ∈ Finset.range states.length, low (i + 1)) *
            ((List.range n).map (κ front)).sum := mul_le_mul_of_nonneg_left head.1 lowest
        _ = ((List.range n).map fun s =>
            κ front s * ∏ i ∈ Finset.range states.length, low (i + 1)).sum := by
          rw [List.sum_map_mul_right, mul_comm]
        _ ≤ _ := List.sum_le_sum fun s hs =>
          mul_le_mul_of_nonneg_left (tails s (List.mem_range.mp hs)).1
            (first s (List.mem_range.mp hs))
    · calc
        _ ≤ ((List.range n).map fun s =>
            κ front s * ∏ i ∈ Finset.range states.length, high (i + 1)).sum :=
          List.sum_le_sum fun s hs =>
            mul_le_mul_of_nonneg_left (tails s (List.mem_range.mp hs)).2
              (first s (List.mem_range.mp hs))
        _ = (∏ i ∈ Finset.range states.length, high (i + 1)) *
            ((List.range n).map (κ front)).sum := by rw [List.sum_map_mul_right, mul_comm]
        _ ≤ _ := mul_le_mul_of_nonneg_left head.2 highest

/-- The product along a whole path, coordinate by coordinate. -/
theorem along_eq_prod (κ : Path → ℕ → ℚ) (front p : Path) :
    along κ front p =
      ∏ i ∈ Finset.range p.length, κ (front ++ p.take i) (p.getD i 0) := by
  induction p generalizing front with
  | nil => rfl
  | cons s p ih =>
    rw [along, ih, List.length_cons, Finset.prod_range_succ', mul_comm]
    simp only [List.take_succ_cons, List.getD_cons_succ, List.take_zero, List.append_nil,
      List.getD_cons_zero, List.append_assoc, List.singleton_append]

/-! ## The mass of a strategy -/

section Mass

variable {d : Diagram Exact} {σ : Strategy}

/-- What a coordinate contributes under a strategy: the entry of its row at a chance node, and
one or zero at a decision node. -/
private def contribution (d : Diagram Exact) (σ : Strategy) (front : Path) (s : ℕ) : ℚ :=
  if front.length ∈ d.chance then
    d.chanceAt front.length (d.informationState front.length front) s
  else if s = σ.choiceAt front.length front then 1 else 0

private theorem getD_take {p : Path} {i j : ℕ} (h : j < i) :
    (p.take i).getD j 0 = p.getD j 0 := by
  rw [List.getD_eq_getElem?_getD, List.getElem?_take_of_lt h, ← List.getD_eq_getElem?_getD]

private theorem informationState_take (h : d.Arranged) (p : Path) (i : ℕ) :
    d.informationState i (p.take i) = d.informationState i p :=
  List.map_congr_left fun j hj => getD_take (h.parents i j hj).1

private theorem length_of_take {states : List ℕ} {i : ℕ} (hi : i < states.length) {q : Path}
    (hq : inRange (states.take i) q = true) : q.length = i := by
  rw [length_of_inRange hq, List.length_take, Nat.min_eq_left hi.le]

/-- The states of a node's parents along the coordinates in front of it. -/
private theorem inRange_informationState_take (h : d.Arranged) {i : ℕ} {q : Path}
    (hq : inRange (d.states.take i) q = true) :
    inRange (d.informationShape i) (d.informationState i q) = true := by
  have range := inRange_map_getD hq (d.informationSet i) fun j hj => by
    obtain ⟨before, inside⟩ := h.parents i j hj
    rw [List.length_take]
    exact Nat.lt_min.mpr ⟨before, inside⟩
  rwa [List.map_congr_left fun j hj => getD_take (h.parents i j hj).1] at range

/-- At a chance node the contributions are the entries of a row. -/
private theorem contribution_chance {i : ℕ} (hi : i < d.states.length) (hc : i ∈ d.chance)
    {q : Path} (hq : inRange (d.states.take i) q = true) :
    contribution d σ q = d.chanceAt i (d.informationState i q) := by
  funext s
  rw [contribution, length_of_take hi hq, if_pos hc]

/-- At a decision node they are one for the choice and zero for the other states. -/
private theorem sum_contribution_decision (h : d.Weighed) (covers : σ.Covers d) {i : ℕ}
    (hi : i < d.states.length) (hc : i ∉ d.chance) {q : Path}
    (hq : inRange (d.states.take i) q = true) :
    ((List.range d.states[i]).map (contribution d σ q)).sum = 1 := by
  have count : d.states[i] = d.states.getD i 0 := (List.getD_eq_getElem _ _ hi).symm
  have hd := (h.arranged.mem_decision_iff hi).mpr hc
  have chosen := covers.choiceAt_lt h.arranged h.assembled hd q
  unfold contribution
  simp only [length_of_take hi hq, if_neg hc, count]
  rw [← List.sum_toFinset _ List.nodup_range, Finset.sum_ite_eq',
    if_pos (List.mem_toFinset.mpr (List.mem_range.mpr chosen))]

private theorem contribution_nonneg (h : d.Weighed) {i : ℕ} (hi : i < d.states.length) {q : Path}
    (hq : inRange (d.states.take i) q = true) {s : ℕ} (hs : s < d.states[i]) :
    0 ≤ contribution d σ q s := by
  by_cases hc : i ∈ d.chance
  · rw [contribution_chance hi hc hq]
    rw [← List.getD_eq_getElem _ 0 hi] at hs
    obtain ⟨_, _, _, nonneg⟩ :=
      h.entry_eq hc (inRange_informationState_take h.arranged hq) hs
    exact nonneg
  · rw [contribution, length_of_take hi hq, if_neg hc]
    split <;> norm_num

/-- Along a path the contributions make its probability if it follows the strategy, and zero if
it does not. -/
private theorem along_contribution (h : d.Weighed) (covers : σ.Covers d) {p : Path}
    (hp : inRange d.states p = true) :
    along (contribution d σ) [] p = if σ.Follows d p then d.weight p else 0 := by
  have length := length_of_inRange hp
  have factor (i : ℕ) (hi : i ∈ Finset.range p.length) :
      contribution d σ ([] ++ p.take i) (p.getD i 0) =
        if i ∈ d.chance then d.chanceAt i (d.informationState i p) (p.getD i 0)
        else if p.getD i 0 = σ.choiceAt i p then 1 else 0 := by
    have front : (p.take i).length = i := by
      rw [List.length_take, Nat.min_eq_left (Finset.mem_range.mp hi).le]
    rw [List.nil_append, contribution, front, informationState_take h.arranged]
    split
    case isTrue => rfl
    case isFalse hc =>
      have hd := (h.arranged.mem_decision_iff (length ▸ Finset.mem_range.mp hi)).mpr hc
      rw [covers.choiceAt_congr h.arranged h.assembled hd
        fun j hj => getD_take (h.arranged.parents i j hj).1]
  have chances : (Finset.range p.length).filter (· ∈ d.chance) = d.chance.toFinset := by
    ext i
    simp only [Finset.mem_filter, Finset.mem_range, List.mem_toFinset, and_iff_right_iff_imp]
    exact fun hi => length ▸ h.arranged.mem_chance_lt hi
  have decisions : (Finset.range p.length).filter (· ∉ d.chance) = d.decision.toFinset := by
    ext i
    simp only [Finset.mem_filter, Finset.mem_range, List.mem_toFinset, length]
    constructor
    · exact fun ⟨hi, hc⟩ => (h.arranged.mem_decision_iff hi).mpr hc
    · intro hi
      have inside := h.arranged.mem_decision_lt hi
      exact ⟨inside, (h.arranged.mem_decision_iff inside).mp hi⟩
  rw [along_eq_prod, Finset.prod_congr rfl factor, Finset.prod_ite, chances, decisions,
    Finset.prod_boole, h.weight_eq_prod hp,
    List.prod_toFinset _ (h.arranged.chance ▸ Diagram.nodup_positionsWhere _ _)]
  simp only [List.mem_toFinset, mul_ite, mul_one, mul_zero]
  rfl

/-- Where the rows of probability tables have sums between two bounds, the paths that follow a
strategy carry a mass between the powers of the bounds. -/
theorem Diagram.Weighed.mass_between (h : d.Weighed) (covers : σ.Covers d) {low high : ℚ}
    (nonneg : 0 ≤ low) (le : low ≤ high)
    (rows : ∀ j ∈ d.chance, ∀ q, inRange (d.informationShape j) q = true →
      low ≤ ((List.range (d.states.getD j 0)).map (d.chanceAt j q)).sum ∧
        ((List.range (d.states.getD j 0)).map (d.chanceAt j q)).sum ≤ high) :
    low ^ d.chance.length ≤ ∑ p ∈ σ.followers d, d.weight p ∧
      ∑ p ∈ σ.followers d, d.weight p ≤ high ^ d.chance.length := by
  have mass : ((Paths.ofStates d.states).toList.map (along (contribution d σ) [])).sum =
      ∑ p ∈ σ.followers d, d.weight p := by
    rw [Strategy.followers, Finset.sum_filter, Diagram.paths,
      List.sum_toFinset _ (Paths.nodup_toList_ofStates _)]
    refine congrArg List.sum (List.map_congr_left fun p hp => ?_)
    exact along_contribution h covers (Paths.mem_toList_ofStates.mp hp)
  have power (r : ℚ) : ∏ i ∈ Finset.range d.states.length, (if i ∈ d.chance then r else 1) =
      r ^ d.chance.length := by
    have chances : (Finset.range d.states.length).filter (· ∈ d.chance) = d.chance.toFinset := by
      ext i
      simp only [Finset.mem_filter, Finset.mem_range, List.mem_toFinset, and_iff_right_iff_imp]
      exact fun hi => h.arranged.mem_chance_lt hi
    have distinct : d.chance.Nodup := h.arranged.chance ▸ Diagram.nodup_positionsWhere _ _
    rw [Finset.prod_ite, Finset.prod_const, Finset.prod_const_one, mul_one, chances,
      List.toFinset_card_of_nodup distinct]
  have bounds (i : ℕ) : 0 ≤ (if i ∈ d.chance then low else 1) ∧
      (if i ∈ d.chance then low else 1) ≤ if i ∈ d.chance then high else 1 := by
    split
    · exact ⟨nonneg, le⟩
    · exact ⟨zero_le_one, le_rfl⟩
  have sums (i : ℕ) (hi : i < d.states.length) (q : Path)
      (hq : inRange (d.states.take i) q = true) : (if i ∈ d.chance then low else 1) ≤
        ((List.range d.states[i]).map (contribution d σ ([] ++ q))).sum ∧
      ((List.range d.states[i]).map (contribution d σ ([] ++ q))).sum ≤
        if i ∈ d.chance then high else 1 := by
    rw [List.nil_append]
    by_cases hc : i ∈ d.chance
    · rw [if_pos hc, if_pos hc, contribution_chance hi hc hq, ← List.getD_eq_getElem _ 0 hi]
      exact rows i hc _ (inRange_informationState_take h.arranged hq)
    · rw [if_neg hc, if_neg hc, sum_contribution_decision h covers hi hc hq]
      exact ⟨le_rfl, le_rfl⟩
  have between := sum_along_between bounds []
    (fun i hi q hq s hs => contribution_nonneg h hi hq hs) sums
  rwa [power, power, mass] at between

/-- The paths that follow a strategy carry the whole probability mass. -/
theorem sum_weight_followers (h : d.Normalized) (covers : σ.Covers d) :
    ∑ p ∈ σ.followers d, d.weight p = 1 := by
  have between := h.weighed.mass_between covers zero_le_one le_rfl fun j hj q hq => by
    rw [h.sum_chanceAt hj hq]
    exact ⟨le_rfl, le_rfl⟩
  rw [one_pow] at between
  exact le_antisymm between.2 between.1

/-- The sum over the compatible paths of a strategy is the sum over its followers. -/
theorem Strategy.Covers.sum_compatiblePaths (covers : σ.Covers d) (h : d.Weighed)
    {ps : List Path} (run : σ.compatiblePaths d .empty = .ok ps) (f : Path → ℚ) :
    (ps.map f).sum = ∑ p ∈ σ.followers d, f p := by
  obtain ⟨qs, run', distinct, member⟩ := covers.compatiblePaths_eq_ok h.arranged h.assembled
  obtain rfl : ps = qs := Except.ok.inj (run.symm.trans run')
  rw [← List.sum_toFinset _ distinct]
  refine Finset.sum_congr (Finset.ext fun p => ?_) fun _ _ => rfl
  rw [List.mem_toFinset, member, Strategy.mem_followers]

theorem Strategy.Covers.expectation_eq (covers : σ.Covers d) (h : d.Normalized) :
    σ.expectation d = ∑ p ∈ σ.followers d, d.weight p * d.utility p := by
  obtain ⟨ps, run, -⟩ := covers.compatiblePaths_eq_ok h.arranged h.assembled
  rw [Strategy.expectation, run]
  exact covers.sum_compatiblePaths h run _

end Mass

/-! ## A normalized diagram -/

/-- A wager: whether to bet on a fair coin, which may gain or lose. -/
def wagerFile (positive : Bool) (objective : ObjectiveSection Exact) : DiagramFile Exact where
  schemaVersion := schemaVersion
  description := none
  nodes := [⟨"bet", .decision, [], ["no", "yes"]⟩, ⟨"coin", .chance, [], ["tails", "heads"]⟩,
    ⟨"gain", .value, ["bet", "coin"], []⟩]
  probabilities := []
  utilities := [("gain", .array [.array [.scalar (finite 0), .scalar (finite 0)],
    .array [.scalar (finite (-1)), .scalar (finite 3)]])]
  generate := ⟨⟨true, true, positive, false⟩, true⟩
  model := { ModelSection.default with objective }

/-- The diagram of the wager, with utilities shifted to positive ones if asked for. -/
def wager (positive : Bool) : Diagram Exact :=
  (wagerFile positive .default).build.toOption.getD (.empty true)

theorem normalized_wager (positive : Bool) : (wager positive).Normalized := by
  have built : (wagerFile positive .default).build.isOk = true := by
    cases positive <;> decide +kernel
  refine .of_isAdditive (DiagramFile.reachable_of_build (except_eq_ok_of_isOk _ built)) ?_ ?_ ?_ <;>
    cases positive <;> decide +kernel

end Influence
