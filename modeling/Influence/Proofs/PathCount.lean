import Mathlib.Algebra.BigOperators.Ring.List
import Influence.Proofs.PathIteration

/-!
# Counting paths

An iterator over paths says how many there are before it lists any.  The paths are as many as the
product of the state counts that no forced state holds, in whatever order these stand
(`length_all_ofStates_eq`).  The iterator multiplies them one after the other and gives up on the
first product that does not fit in 128 bits, so it never says a wrong number; but a count of zero
that comes only then is overlooked (`OverflowsEarly`), and there the number depends on the order of
the coordinates (`count_exact_iff`).
-/

namespace Influence.Paths

/-- The numbers of states of the coordinates that are not forced, in order. -/
def freeCounts (states : List ℕ) (fixed : FixedPath) : List ℕ :=
  (states.zipIdx.filter fun e => (fixed.get? e.2).isNone).map Prod.fst

/-- The product of the counts no longer fits in 128 bits before a count of zero is met. -/
def OverflowsEarly (counts : List ℕ) : Prop :=
  0 ∈ counts ∧ Word.count128 ≤ (counts.takeWhile (0 < ·)).prod

variable {states : List ℕ} {fixed : FixedPath}

/-! ## What the iterator yields -/

/-- There are as many paths as the product of the free counts says. -/
theorem length_all_ofStates_eq (states : List ℕ) (fixed : FixedPath) :
    (all (Coordinate.ofStates states fixed)).length = (freeCounts states fixed).prod := by
  rw [length_all, Coordinate.ofStates, List.map_map, freeCounts]
  induction states.zipIdx with
  | nil => rfl
  | cons e es ih =>
    rw [List.map_cons, List.prod_cons, ih, List.filter_cons]
    cases forced : fixed.get? e.2 with
    | none => simp [forced, Coordinate.states]
    | some state => simp [forced, Coordinate.states]

/-- What the iterator multiplies. -/
theorem count?_eq_checkedProduct (states : List ℕ) (fixed : FixedPath) :
    (ofCoordinates (Coordinate.ofStates states fixed)).count? =
      checkedProduct (freeCounts states fixed) := by
  rw [count?, ofCoordinates, Coordinate.ofStates, freeCounts, List.filterMap_map]
  refine congrArg checkedProduct ?_
  induction states.zipIdx with
  | nil => rfl
  | cons e es ih =>
    rw [List.filterMap_cons, List.filter_cons, ih]
    cases forced : fixed.get? e.2 with
    | none => simp [forced]
    | some state => simp [forced]

/-! ## When the number is right -/

/-- An early overflow hides that there are no paths. -/
theorem checkedProduct_of_overflowsEarly {counts : List ℕ} (early : OverflowsEarly counts) :
    counts.prod = 0 ∧ checkedProduct counts = none := by
  obtain ⟨zero, overflow⟩ := early
  refine ⟨List.prod_eq_zero zero, ?_⟩
  rw [checkedProduct_eq, if_neg (by omega)]

/-- Without one the product is given as far as it fits. -/
theorem checkedProduct_of_not_overflowsEarly {counts : List ℕ} (timely : ¬ OverflowsEarly counts) :
    checkedProduct counts =
      if counts.prod < Word.count128 then some counts.prod else none := by
  rw [checkedProduct_eq]
  by_cases zero : 0 ∈ counts
  · have front : (counts.takeWhile (0 < ·)).prod < Word.count128 := by
      by_contra overflow
      exact timely ⟨zero, not_lt.mp overflow⟩
    have product : counts.prod < Word.count128 := by
      rw [List.prod_eq_zero zero]
      decide
    rw [if_pos front, if_pos product]
  · have whole : counts.takeWhile (0 < ·) = counts :=
      List.takeWhile_eq_self_iff.mpr fun n hn =>
        decide_eq_true (Nat.pos_of_ne_zero fun same => zero (same ▸ hn))
    rw [whole]

theorem checkedProduct_exact_iff (counts : List ℕ) :
    checkedProduct counts = (if counts.prod < Word.count128 then some counts.prod else none) ↔
      ¬ OverflowsEarly counts := by
  constructor
  · intro exact early
    obtain ⟨product, none⟩ := checkedProduct_of_overflowsEarly early
    rw [none, product, if_pos (by decide)] at exact
    cases exact
  · exact checkedProduct_of_not_overflowsEarly

/-- Counts in two orders have the same checked product unless just one of the orders overflows
early. -/
theorem checkedProduct_eq_of_perm_iff {counts counts' : List ℕ} (perm : counts'.Perm counts) :
    checkedProduct counts' = checkedProduct counts ↔
      (OverflowsEarly counts' ↔ OverflowsEarly counts) := by
  have product : counts'.prod = counts.prod := perm.prod_eq
  by_cases early : OverflowsEarly counts
  · obtain ⟨zero, stopped⟩ := checkedProduct_of_overflowsEarly early
    by_cases early' : OverflowsEarly counts'
    · rw [stopped, (checkedProduct_of_overflowsEarly early').2]
      exact iff_of_true rfl (iff_of_true early' early)
    · rw [stopped, checkedProduct_of_not_overflowsEarly early', product, zero, if_pos (by decide)]
      exact iff_of_false nofun fun same => early' (same.mpr early)
  · by_cases early' : OverflowsEarly counts'
    · obtain ⟨zero, stopped⟩ := checkedProduct_of_overflowsEarly early'
      rw [stopped, checkedProduct_of_not_overflowsEarly early, ← product, zero, if_pos (by decide)]
      exact iff_of_false nofun fun same => early (same.mp early')
    · rw [checkedProduct_of_not_overflowsEarly early, checkedProduct_of_not_overflowsEarly early',
        product]
      exact iff_of_true rfl (iff_of_false early' early)

/-- An iterator that is not refused yields as many paths as the product of the free counts, and
says this number, or that it does not fit in 128 bits, exactly where the product does not overflow
before a zero.  Where it does there are no paths, but the iterator says that their number does not
fit.  So the order of the coordinates matters exactly where only one of two orders overflows so. -/
theorem count_exact_iff {α : Type} {ps : Paths}
    (accepted : (withFixed states fixed : Except (DiagramError α) Paths) = .ok ps) :
    (∀ k, (ps.take k).1.length = min k (freeCounts states fixed).prod) ∧
    (ps.count? = (if (freeCounts states fixed).prod < Word.count128
        then some (freeCounts states fixed).prod else none) ↔
      ¬ OverflowsEarly (freeCounts states fixed)) ∧
    (OverflowsEarly (freeCounts states fixed) →
      (freeCounts states fixed).prod = 0 ∧ ps.count? = none) ∧
    ∀ (states' : List ℕ) (fixed' : FixedPath) (ps' : Paths),
      (withFixed states' fixed' : Except (DiagramError α) Paths) = .ok ps' →
      (freeCounts states' fixed').Perm (freeCounts states fixed) →
      (ps'.count? = ps.count? ↔ (OverflowsEarly (freeCounts states' fixed') ↔
        OverflowsEarly (freeCounts states fixed))) := by
  obtain ⟨-, rfl⟩ := withFixed_eq_ok_iff.mp accepted
  rw [count?_eq_checkedProduct]
  refine ⟨fun k => ?_, checkedProduct_exact_iff _, checkedProduct_of_overflowsEarly, ?_⟩
  · have start := passed_ofCoordinates (Coordinate.ofStates states fixed)
    rw [start.take k, List.drop_zero, List.length_take, length_all_ofStates_eq]
  · intro states' fixed' ps' accepted' perm
    obtain ⟨-, rfl⟩ := withFixed_eq_ok_iff.mp accepted'
    rw [count?_eq_checkedProduct]
    exact checkedProduct_eq_of_perm_iff perm

/-- Coordinates of the greatest word of states, and an empty one behind them. -/
def emptyLast : List ℕ := [Word.count64 - 1, 7, Word.count64 - 1, Word.count64 - 1, 0]

/-- The empty coordinate in front. -/
def emptyFirst : List ℕ := [0, Word.count64 - 1, Word.count64 - 1, Word.count64 - 1]

/-- With the empty coordinate in front there are said to be no paths, and with it at the end more
than 128 bits can count.  A coordinate that is held does not count. -/
theorem count_exact_iff_emptied :
    ∃ ps ps', (withFixed emptyLast (.ofPairs [(1, 5)]) : Except (DiagramError Unit) Paths) =
        .ok ps ∧
      (withFixed emptyFirst .empty : Except (DiagramError Unit) Paths) = .ok ps' ∧
      (∀ k, (ps.take k).1 = []) ∧ ps.count? = none ∧ ps'.count? = some 0 := by
  have last : (withFixed emptyLast (.ofPairs [(1, 5)]) : Except (DiagramError Unit) Paths) =
      .ok (.ofCoordinates (Coordinate.ofStates emptyLast (.ofPairs [(1, 5)]))) := rfl
  have first : (withFixed emptyFirst .empty : Except (DiagramError Unit) Paths) =
      .ok (.ofCoordinates (Coordinate.ofStates emptyFirst .empty)) := rfl
  refine ⟨_, _, last, first, fun k => ?_, ?_, ?_⟩
  · have yields := (count_exact_iff last).1 k
    have none : (freeCounts emptyLast (.ofPairs [(1, 5)])).prod = 0 := by decide
    rw [none, Nat.min_zero] at yields
    exact List.eq_nil_of_length_eq_zero yields
  · exact ((count_exact_iff last).2.2.1 ⟨by decide, by decide⟩).2
  · refine (count_exact_iff first).2.1.mpr fun early => ?_
    have product := early.2
    revert product
    decide

end Influence.Paths
