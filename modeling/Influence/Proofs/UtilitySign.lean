import Influence.Proofs.Sound

/-!
# Signs of shifted utilities

Two operations alone touch the shift of a diagram: generation settles it from the extremes of the
path utilities, and replacing the path utility takes it back together with the sign.  So wherever
operations lead, a diagram is `Settled`: it shifts nothing and claims no sign, or it is generated,
its utilities are sums, and its shift is the one that brings an extreme of them to one or minus one.

The sign that a diagram claims is therefore the sign that its shifted utilities have on every path
in range, the bound is attained, and taking the shift off gives the utility without it back
(`shiftedPathUtility_signed`).
-/

namespace Influence.Diagram

open Extended

section Keeping

variable {α : Type} [Scalar α]

/-- Utilities are not shifted, and no sign is claimed for them. -/
structure Unshifted (d : Diagram α) : Prop where
  shift : d.shift = 0
  sign : d.sign = .unrestricted

/-- How the shift of a diagram goes with the sign that it claims. -/
inductive Settled (d : Diagram α) : Prop
  | unshifted (h : Unshifted d)
  | raised {low high : α} (generated : d.phase = .generated)
      (additive : d.pathUtility = some .additive) (range : d.utilityRange = .ok (low, high))
      (shift : d.shift = 1 - low) (sign : d.sign = .positive)
  | lowered {low high : α} (generated : d.phase = .generated)
      (additive : d.pathUtility = some .additive) (range : d.utilityRange = .ok (low, high))
      (shift : d.shift = -1 - high) (sign : d.sign = .negative)

/-- Before generation nothing is shifted. -/
theorem Settled.of_phase {d : Diagram α} (h : Settled d) (early : d.phase ≠ .generated) :
    Unshifted d := by
  cases h with
  | unshifted h => exact h
  | raised generated => exact absurd generated early
  | lowered generated => exact absurd generated early

/-! ## Assembly and tables -/

theorem keeps_settled_addNode (n : Node) : Keeps Settled (addNode (α := α) n) := by
  intro d h
  refine (ends_addNode n d).mono fun _ e he => ?_
  rcases he with rfl | ⟨building, -, -, rfl⟩
  · exact h
  · have early := h.of_phase (by rw [building]; decide)
    exact .unshifted ⟨early.shift, early.sign⟩

theorem keeps_settled_generateArcs : Keeps Settled (generateArcs (α := α)) := by
  intro d h
  refine (ends_generateArcs d).mono fun _ e he => ?_
  rcases he with rfl | ⟨building, parents, placed, -, -, rfl⟩
  · exact h
  · have early := h.of_phase (by rw [building]; decide)
    exact .unshifted ⟨early.shift, early.sign⟩

theorem keeps_settled_setProbabilities (name : String) (source : TableSource α) :
    Keeps Settled (setProbabilities name source) := by
  intro d h
  unfold setProbabilities
  rw [ends_get_bind, ends_liftM_bind]
  refine ⟨fun i hi => ?_, fun _ _ => h⟩
  have early := h.of_phase (by rw [(attachable_eq_ok hi).1]; decide)
  rw [ends_liftM_bind]
  refine ⟨fun t _ => ?_, fun _ _ => h⟩
  split
  case h_1 => exact h
  case h_2 =>
    split
    case h_1 => exact h
    case h_2 => exact .unshifted ⟨early.shift, early.sign⟩

theorem keeps_settled_setUtility (name : String) (source : TableSource α) :
    Keeps Settled (setUtility name source) := by
  intro d h
  unfold setUtility
  rw [ends_get_bind, ends_liftM_bind]
  refine ⟨fun i hi => ?_, fun _ _ => h⟩
  have early := h.of_phase (by rw [(attachable_eq_ok hi).1]; decide)
  rw [ends_liftM_bind]
  refine ⟨fun t _ => ?_, fun _ _ => h⟩
  split
  case isTrue => exact .unshifted ⟨early.shift, early.sign⟩
  case isFalse => exact h

/-! ## Generation -/

theorem keeps_unshifted_fillProbability (o : GenerateOptions) (j : ℕ) :
    Keeps Unshifted (fillProbability (α := α) o j) := by
  intro d h
  unfold fillProbability
  rw [ends_get_bind]
  split
  case isTrue =>
    cases o.defaultProbability with
    | true => exact ⟨h.shift, h.sign⟩
    | false => exact h
  case isFalse => exact h

theorem keeps_unshifted_fillUtility (v : ℕ) : Keeps Unshifted (fillUtility (α := α) v) := by
  intro d h
  unfold fillUtility
  rw [ends_get_bind]
  split
  case isTrue => exact ⟨h.shift, h.sign⟩
  case isFalse => exact h

/-- Settling the utility shifts nothing, and gives sums where zeros may be filled in. -/
theorem ends_settleUtility_unshifted (o : GenerateOptions) {d : Diagram α} (h : Unshifted d) :
    Ends (settleUtility o) d fun r e => Unshifted e ∧
      (r = .ok () → o.defaultUtility = true → e.pathUtility = some .additive) := by
  unfold settleUtility
  split
  case isTrue =>
    rw [ends_get_bind]
    have fill : Keeps Unshifted (d.value.forM (fillUtility (α := α))) :=
      keeps_forM fun v _ => keeps_unshifted_fillUtility v
    refine ends_bind ((fill d h).mono fun r e he => ?_)
    cases r with
    | error => exact ⟨he, fun failed => by cases failed⟩
    | ok => exact ⟨⟨he.shift, he.sign⟩, fun _ _ => rfl⟩
  case isFalse off => exact ⟨⟨h.shift, h.sign⟩, fun _ on => absurd on off⟩

/-- Generation settles the shift from the utilities that it leaves behind. -/
theorem keeps_settled_generate (o : GenerateOptions) : Keeps Settled (generate (α := α) o) := by
  intro d h
  unfold generate
  rw [ends_get_bind]
  split
  case h_1 => exact h
  case h_2 => exact h
  case h_3 assembled =>
    have early := h.of_phase (by rw [assembled]; decide)
    split
    case h_1 => exact h
    case h_2 noFault =>
      have fill : Keeps Unshifted (d.chance.forM (fillProbability (α := α) o)) :=
        keeps_forM fun j _ => keeps_unshifted_fillProbability o j
      refine ends_bind ((fill d early).mono fun r e filled => ?_)
      cases r with
      | error => exact .unshifted filled
      | ok =>
        refine ends_bind ((ends_settleUtility_unshifted o filled).mono fun r e settled => ?_)
        obtain ⟨plain, additive⟩ := settled
        cases r with
        | error => exact .unshifted plain
        | ok =>
          refine ends_bind ((ends_settleSign o e).mono fun r e' signed => ?_)
          obtain ⟨shift, sign, rfl, cases⟩ := signed
          rcases cases with ⟨rfl, rfl⟩ | ⟨rfl, asked, low, high, range, cases⟩
          · cases r <;> exact .unshifted ⟨rfl, rfl⟩
          · have additive := additive rfl (defaultUtility_of_optionFault? noFault asked)
            rcases cases with ⟨rfl, rfl⟩ | ⟨rfl, rfl⟩
            · exact .raised rfl additive range rfl rfl
            · exact .lowered rfl additive range rfl rfl

theorem keeps_settled_setPathUtility (u : PathUtility α) :
    Keeps Settled (setPathUtility u) := by
  intro d h
  unfold setPathUtility
  rw [ends_get_bind]
  split
  case isTrue => exact h
  case isFalse => exact .unshifted ⟨rfl, rfl⟩

end Keeping

/-! ## Runs -/

theorem keeps_settled (op : Operation) : Keeps Settled op.action := by
  cases op with
  | addNode n => exact keeps_settled_addNode n
  | generateArcs => exact keeps_settled_generateArcs
  | setProbabilities name source => exact keeps_settled_setProbabilities name source
  | setUtility name source => exact keeps_settled_setUtility name source
  | generate o => exact keeps_settled_generate o
  | setPathUtility u => exact keeps_settled_setPathUtility u

/-- Wherever operations lead, the shift goes with the sign. -/
theorem Reachable.settled {d : Diagram Exact} (h : Reachable d) : Settled d := by
  induction h with
  | empty strict => exact .unshifted ⟨rfl, rfl⟩
  | step _ op ih => exact keeps_settled op _ ih

/-! ## Paths -/

variable {d : Diagram Exact} {p : Path}

/-- The range is found where every path has a utility. -/
theorem exists_utilityOf {range : Exact × Exact} (h : d.utilityRange = .ok range)
    (hp : inRange d.states p = true) : ∃ u, d.utilityOf p = .ok u := by
  rw [utilityRange_eq] at h
  obtain ⟨us, run, -⟩ := except_bind_eq_ok.mp h
  obtain ⟨u, -, value⟩ := except_eq_ok_of_mem_mapM run (Paths.mem_toList_ofStates.mpr hp)
  exact ⟨u, value⟩

theorem shiftedPathUtility_of_utilityOf (generated : d.phase = .generated)
    (hp : inRange d.states p = true) {r s : ℚ} (value : d.utilityOf p = .ok (finite r))
    (shift : d.shift = finite s) : d.shiftedPathUtility p = .ok (finite (r + s)) := by
  rw [shiftedPathUtility, rawPathUtility, checkPath_eq_ok_iff.mpr ⟨generated, hp⟩, shift,
    ← finite_add]
  change (do pure ((← d.utilityOf p) + finite s)) = _
  rw [value]
  rfl

theorem Reachable.exists_isRange (h : Reachable d) (generated : d.phase = .generated)
    (additive : d.pathUtility = some .additive) {low high : Exact}
    (range : d.utilityRange = .ok (low, high)) :
    ∃ a b : ℚ, low = finite a ∧ high = finite b ∧ d.IsRange a b := by
  have arranged := h.valid.arranged (by rw [generated]; decide)
  obtain ⟨a, b, extremes, within⟩ := utilityRange_eq_ok arranged h.valid.stored additive range
  obtain ⟨rfl, rfl⟩ := Prod.mk.inj extremes
  exact ⟨a, b, rfl, rfl, within⟩

/-- Shifted utilities are the utilities moved by a shift, so their bounds move with it. -/
theorem IsRange.shifted {low high s : ℚ} (within : d.IsRange low high)
    (generated : d.phase = .generated) (shift : d.shift = finite s)
    (known : ∀ p, inRange d.states p = true → ∃ u, d.utilityOf p = .ok u) :
    (∀ p, inRange d.states p = true →
      ∃ r : ℚ, d.shiftedPathUtility p = .ok (finite r) ∧ low + s ≤ r ∧ r ≤ high + s) ∧
    (∃ p, inRange d.states p = true ∧ d.shiftedPathUtility p = .ok (finite (low + s))) ∧
    ∃ p, inRange d.states p = true ∧ d.shiftedPathUtility p = .ok (finite (high + s)) := by
  refine ⟨fun p hp => ?_, ?_, ?_⟩
  · obtain ⟨u, value⟩ := known p hp
    obtain ⟨r, rfl, atLeast, atMost⟩ := within.bounds p hp u value
    exact ⟨r + s, shiftedPathUtility_of_utilityOf generated hp value shift,
      add_le_add_left atLeast s, add_le_add_left atMost s⟩
  · obtain ⟨p, hp, value⟩ := within.low
    exact ⟨p, hp, shiftedPathUtility_of_utilityOf generated hp value shift⟩
  · obtain ⟨p, hp, value⟩ := within.high
    exact ⟨p, hp, shiftedPathUtility_of_utilityOf generated hp value shift⟩

/-- Adding a number and taking it off again changes nothing, not even an infinity. -/
theorem add_sub_finite (u : Exact) (s : ℚ) : u + finite s - finite s = u := by
  cases u with
  | finite r => rw [finite_add, finite_sub, add_sub_cancel_right]
  | notANumber => rfl
  | bottom => rfl
  | top => rfl

theorem isFinite_shift (h : Reachable d) : Scalar.isFinite d.shift = true := by
  cases h.settled with
  | unshifted h =>
    rw [h.shift]
    rfl
  | raised generated => exact (h.valid.signed generated).shift
  | lowered generated => exact (h.valid.signed generated).shift

/-- Wherever operations lead, the sign that a diagram claims is the sign of its shifted utilities
on every path in range, and its bound is attained; without a sign nothing is shifted.  Taking the
shift off a shifted utility gives the utility without it, or the same error. -/
theorem shiftedPathUtility_signed (h : Reachable d) :
    (d.sign = .positive →
      (∀ p, inRange d.states p = true →
        ∃ r : ℚ, d.shiftedPathUtility p = .ok (finite r) ∧ 1 ≤ r) ∧
      ∃ p, inRange d.states p = true ∧ d.shiftedPathUtility p = .ok (finite 1)) ∧
    (d.sign = .negative →
      (∀ p, inRange d.states p = true →
        ∃ r : ℚ, d.shiftedPathUtility p = .ok (finite r) ∧ r ≤ -1) ∧
      ∃ p, inRange d.states p = true ∧ d.shiftedPathUtility p = .ok (finite (-1))) ∧
    (d.sign = .unrestricted → d.shift = 0) ∧
    ∀ p, (do pure ((← d.shiftedPathUtility p) - d.shift)) = d.rawPathUtility p := by
  refine ⟨fun positive => ?_, fun negative => ?_, fun unrestricted => ?_, fun p => ?_⟩
  · cases h.settled with
    | unshifted h => cases h.sign.symm.trans positive
    | lowered _ _ _ _ sign => cases sign.symm.trans positive
    | raised generated additive range shift =>
      obtain ⟨low, high, rfl, rfl, within⟩ := h.exists_isRange generated additive range
      rw [one_eq_finite, finite_sub] at shift
      obtain ⟨bounds, attained, -⟩ :=
        within.shifted generated shift fun p => exists_utilityOf range
      rw [add_sub_cancel] at attained bounds
      exact ⟨fun p hp => (bounds p hp).imp fun r hr => ⟨hr.1, hr.2.1⟩, attained⟩
  · cases h.settled with
    | unshifted h => cases h.sign.symm.trans negative
    | raised _ _ _ _ sign => cases sign.symm.trans negative
    | lowered generated additive range shift =>
      obtain ⟨low, high, rfl, rfl, within⟩ := h.exists_isRange generated additive range
      rw [one_eq_finite, finite_neg, finite_sub] at shift
      obtain ⟨bounds, -, attained⟩ :=
        within.shifted generated shift fun p => exists_utilityOf range
      rw [add_sub_cancel] at attained bounds
      exact ⟨fun p hp => (bounds p hp).imp fun r hr => ⟨hr.1, hr.2.2⟩, attained⟩
  · cases h.settled with
    | unshifted h => exact h.shift
    | raised _ _ _ _ sign => cases sign.symm.trans unrestricted
    | lowered _ _ _ _ sign => cases sign.symm.trans unrestricted
  · rw [shiftedPathUtility, ← finite_rational (isFinite_shift h)]
    cases d.rawPathUtility p with
    | error => rfl
    | ok u => exact congrArg Except.ok (add_sub_finite u _)

/-- The least utility of the wager is raised to one. -/
theorem shiftedPathUtility_signed_wager : Reachable (wager true) ∧
    (wager true).sign = .positive ∧ ∃ p, inRange (wager true).states p = true ∧
      (wager true).shiftedPathUtility p = .ok (finite 1) := by
  have reachable := (normalized_wager true).reachable
  have positive : (wager true).sign = .positive := by decide +kernel
  exact ⟨reachable, positive, ((shiftedPathUtility_signed reachable).1 positive).2⟩

end Influence.Diagram
