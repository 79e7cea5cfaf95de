import Influence.Proofs.Completion

/-!
# Attempts of the search

The search settles the path variables of a candidate one after the other, and each settles as it
would alone, since only bits occur in what confines it (`attempt_of_picked`).  What is checked of
the outcome is the cut: the paths that follow but are not raised must not weigh more than the
tolerance (`satisfies_completion_iff`).
-/

namespace Influence

open Extended Program Search

section Attempts

variable {d : Diagram Exact} {o : PathVariableOptions Exact} {isLazy : Bool}
  {z : DecisionVariables} {x : PathVariables Exact} {m : Program Exact}
  {e : ExpectedUtility Exact} {direction : Direction}

open DecisionVariables (strategyOf IsChoice bitsOf picksOf Picks)

/-! ## Preferences -/

/-- The preference for a path variable is its coefficient, with the sign of the direction. -/
theorem preference_eq (enc : Encoding d o isLazy z x m) (hn : d.Normalized)
    (built : ExpectedUtility.build d x = .ok e) {t : Path × ℕ} (ht : t ∈ x.vars) :
    preference (m.withObjective direction e.expr) t.2 =
      finite (preferred d x direction.sign t.1) := by
  obtain ⟨-, rfl⟩ := ExpectedUtility.build_eq_ok enc.paths hn built
  set terms := x.vars.map fun t => (t.2, (finite (ExpectedUtility.coefficient d x t.1) : Exact))
    with hterms
  have isFinite : (LinearExpr.ofTerms terms).IsFinite := LinearExpr.isFinite_ofTerms fun u hu => by
    obtain ⟨w, -, rfl⟩ := List.mem_map.mp hu
    rfl
  have names : (terms.map (·.1)).Nodup := by
    rw [hterms, List.map_map]
    change (x.vars.map (·.2)).Nodup
    rw [enc.paths.vars]
    exact List.nodup_range'
  have coefficient : LinearExpr.termsAt (LinearExpr.ofTerms terms).compact.terms
      (Pi.single t.2 1) = ExpectedUtility.coefficient d x t.1 := by
    have same := LinearExpr.valueAt_compact isFinite (Pi.single t.2 1)
    rw [LinearExpr.valueAt_ofTerms, LinearExpr.termsAt_single names
      (List.mem_map_of_mem
        (f := fun t => (t.2, finite (ExpectedUtility.coefficient d x t.1))) ht)] at same
    change (0 : ℚ) + LinearExpr.termsAt _ _ = _ at same
    rwa [zero_add] at same
  rw [Search.preference_eq_coefficient (m := m.withObjective direction (LinearExpr.ofTerms terms))
    isFinite.compact]
  change finite (direction.sign * LinearExpr.termsAt (LinearExpr.ofTerms terms).compact.terms
    (Pi.single t.2 1)) = _
  rw [coefficient]
  rfl

/-! ## Settling all path variables -/

variable (direction) in
/-- The continuous variables of a program are its path variables. -/
theorem var_of_mem_settlings (enc : Encoding d o isLazy z x m) {s : Settling Exact}
    (hs : s ∈ settlings (m.withObjective direction e.expr)) :
    ∃ t ∈ x.vars, s.index = t.2 ∧ s.bounds = (0, 1) ∧ s.confining = confining m t.2 ∧
      s.preference = preference (m.withObjective direction e.expr) t.2 := by
  obtain ⟨w, hw, kind, settles⟩ := mem_settlings.mp hs
  have continuous : m.isContinuous s.index = true := by
    rw [isContinuous, show m.vars[s.index]? = some w from hw, Option.any_some, beq_iff_eq]
    exact kind
  obtain ⟨t, ht, index⟩ := enc.exists_share continuous
  have share := enc.isShare_of_isContinuous hw continuous
  rw [settles, ← index]
  exact ⟨t, ht, rfl, by rw [share.lower, share.upper], rfl, rfl⟩

variable (direction) in
theorem isShare_index_iff (enc : Encoding d o isLazy z x m) {v : ℕ} :
    v ∈ (settlings (m.withObjective direction e.expr)).map (·.index) ↔ ∃ t ∈ x.vars, t.2 = v := by
  rw [mem_index_settlings]
  constructor
  · exact fun continuous => enc.exists_share continuous
  · rintro ⟨t, ht, rfl⟩
    exact enc.isContinuous_share ht

/-- The completed values of a candidate. -/
def completion (d : Diagram Exact) (o : PathVariableOptions Exact) (z : DecisionVariables)
    (x : PathVariables Exact) (sign : ℚ) (picks : List ℕ) : ℕ → ℚ :=
  combine z x (bitsOf z.blocks picks)
    (settledShare d o x sign (strategyOf z (bitsOf z.blocks picks)))

theorem plan_eq (enc : Encoding d o isLazy z x m) (hn : d.Normalized) :
    (plan (m.withObjective direction e.expr)).space = ⟨z.blocks, []⟩ := enc.space_eq hn.arranged

/-- The values with the bits of a candidate set. -/
private theorem getD_assigned (enc : Encoding d o isLazy z x m) {picks : List ℕ}
    (hp : Picks z.blocks picks) {v : ℕ} (hv : v ∈ z.vars) :
    ((Space.mk z.blocks []).assign picks (Array.replicate m.vars.size 0)).getD v 0 =
      finite (bitsOf z.blocks picks v) := by
  have flat := enc.decisions.blocks_flatten
  have inside : ∀ w ∈ z.blocks.flatten, w < (Array.replicate m.vars.size (0 : Exact)).size := by
    intro w hw
    rw [Array.size_replicate, enc.size_eq]
    exact (enc.mem_vars_lt (flat ▸ hw)).trans_le (Nat.le_add_right _ _)
  rw [getD_assign enc.nodup_blocks_flatten hp inside, if_pos (flat.symm ▸ hv), bitsOf]
  split <;> rfl

/-- What is left to a path variable while the bits are given: whatever the values of the other path
variables, the shares with the property. -/
def Leaves (m : Program Exact) (z : DecisionVariables) (a : ℕ → ℚ) (v : ℕ) (P : ℚ → Prop) : Prop :=
  ∀ values : Array Exact, values.size = m.vars.size →
    (∀ w ∈ z.vars, values.getD w 0 = finite (a w)) →
      Interval ((confining m v).foldl (fun b e => confine values v b e.1 e.2) (0, 1)) P

/-- What each path variable settles to while the bits are those of a candidate. -/
private theorem settle_step (enc : Encoding d o isLazy z x m) (hn : d.Normalized)
    (built : ExpectedUtility.build d x = .ok e) {tolerance : ℚ} (nonneg : 0 ≤ tolerance)
    {a : ℕ → ℚ} {P : Path × ℕ → ℚ → Prop} (left : ∀ t ∈ x.vars, Leaves m z a t.2 (P t))
    {y : ℕ → ℚ} (picked : ∀ t ∈ x.vars, Picked (preferred d x direction.sign t.1) (P t) (y t.2))
    {s : Settling Exact} (hs : s ∈ settlings (m.withObjective direction e.expr))
    {values : Array Exact}
    (kept : values.size = m.vars.size ∧ ∀ v ∈ z.vars, values.getD v 0 = finite (a v)) :
    s.settle (finite tolerance) values =
        .ok (some (values.setIfInBounds s.index (finite (y s.index)))) ∧
      (values.setIfInBounds s.index (finite (y s.index))).size = m.vars.size ∧
        ∀ v ∈ z.vars, (values.setIfInBounds s.index (finite (y s.index))).getD v 0 =
          finite (a v) := by
  obtain ⟨size, bits⟩ := kept
  obtain ⟨t, ht, index, bounds, confines, preference⟩ := var_of_mem_settlings direction enc hs
  have room := left t ht values size bits
  rw [← bounds, ← confines, ← index] at room
  rw [preference_eq enc hn built ht] at preference
  refine ⟨?_, by rw [Array.size_setIfInBounds, size], fun v hv => ?_⟩
  · rw [settle_eq_ok room preference (picked t ht) nonneg, index]
  · rw [index, getD_set_of_ne, bits v hv]
    exact ne_of_lt ((enc.mem_vars_lt hv).trans_le (enc.paths.var_mem ht).1)

/-- An attempt completes its candidate with the shares that are picked of what is left to the path
variables. -/
theorem attempt_of_picked (enc : Encoding d o isLazy z x m) (hn : d.Normalized)
    (built : ExpectedUtility.build d x = .ok e) {tolerance : ℚ} (nonneg : 0 ≤ tolerance)
    {picks : List ℕ} (hp : Picks z.blocks picks) {P : Path × ℕ → ℚ → Prop}
    (left : ∀ t ∈ x.vars, Leaves m z (bitsOf z.blocks picks) t.2 (P t)) {share : Path → ℚ}
    (picked : ∀ t ∈ x.vars, Picked (preferred d x direction.sign t.1) (P t) (share t.1)) :
    ∃ values : Array Exact, values.size = m.vars.size ∧
      (∀ v < m.vars.size,
        values.getD v 0 = finite (combine z x (bitsOf z.blocks picks) share v)) ∧
      (plan (m.withObjective direction e.expr)).attempt (finite tolerance) picks =
        .ok (if m.constraints.all (·.isSatisfied values (finite tolerance)) then
          some ⟨picks, finite direction.sign * e.expr.compact.evaluate values, values⟩
        else none) := by
  set a := bitsOf z.blocks picks
  set ss := settlings (m.withObjective direction e.expr)
  set y := combine z x a share with hy
  set assigned := (Space.mk z.blocks []).assign picks (Array.replicate m.vars.size (0 : Exact))
    with hassigned
  have size : assigned.size = m.vars.size := by
    rw [hassigned, size_assign, Array.size_replicate]
  have bits (v : ℕ) (hv : v ∈ z.vars) : assigned.getD v 0 = finite (a v) :=
    getD_assigned enc hp hv
  have combined : ∀ t ∈ x.vars, Picked (preferred d x direction.sign t.1) (P t) (y t.2) := by
    intro t ht
    rw [hy, enc.combine_share ht]
    exact picked t ht
  have run : settleAll (finite tolerance) ss assigned = .ok (some (settled ss y assigned)) :=
    settleAll_eq_ok (Q := fun values => values.size = m.vars.size ∧
        ∀ v ∈ z.vars, values.getD v 0 = finite (a v))
      (fun s hs values kept => settle_step enc hn built nonneg left combined hs kept) ⟨size, bits⟩
  refine ⟨settled ss y assigned, (size_settled ss y assigned).trans size, fun v hv => ?_, ?_⟩
  · rw [getD_settled y (fun s hs => ?_) v]
    · by_cases index : v ∈ ss.map (·.index)
      · rw [if_pos index]
      · have bit : v ∈ z.vars := by
          rw [enc.mem_vars_iff]
          by_contra high
          refine index ((isShare_index_iff direction enc).mpr (enc.exists_share ?_))
          rw [enc.isContinuous_iff]
          exact ⟨not_lt.mp high, enc.size_eq ▸ hv⟩
        rw [if_neg index, bits v bit, hy, enc.combine_bit bit]
    · obtain ⟨t, ht, index, -⟩ := var_of_mem_settlings direction enc hs
      rw [size, enc.size_eq, index]
      exact (enc.paths.var_mem ht).2
  · refine attempt_of_settled (p := plan (m.withObjective direction e.expr)) ?_
    rw [plan_eq enc hn]
    exact run

variable (direction) in
/-- An attempt completes its candidate, if a path variable that carries the cut alone can do
so. -/
theorem attempt_eq_ok (enc : Encoding d o isLazy z x m) (hn : d.Normalized)
    (cut : o.probabilityCut = true ∨ isLazy = true) (free : ∀ e ∈ o.fixed.entries, e.1 ∉ d.chance)
    (small : z.vars.length < Word.count64) (built : ExpectedUtility.build d x = .ok e)
    {tolerance : ℚ} (nonneg : 0 ≤ tolerance) {picks : List ℕ} (hp : Picks z.blocks picks)
    (alone : ∀ t, x.vars = [t] →
      (strategyOf z (bitsOf z.blocks picks)).Follows d t.1 ∧ d.weight t.1 = 1) :
    ∃ values : Array Exact, values.size = m.vars.size ∧
      (∀ v < m.vars.size,
        values.getD v 0 = finite (completion d o z x direction.sign picks v)) ∧
      (plan (m.withObjective direction e.expr)).attempt (finite tolerance) picks =
        .ok (if m.constraints.all (·.isSatisfied values (finite tolerance)) then
          some ⟨picks, finite direction.sign * e.expr.compact.evaluate values, values⟩
        else none) := by
  have choice := DecisionVariables.isChoice_bitsOf enc.decisions hp
  refine attempt_of_picked (P := Room d o z x (bitsOf z.blocks picks)) enc hn built nonneg hp
    (fun t ht values size bits => ?_) fun t ht => ?_
  · exact interval_room enc hn cut free small (size.trans enc.size_eq) bits ht
  · exact picked_settledShare enc hn small choice ht (alone t) direction.sign

/-- An attempt with no room for a path variable that carries the cut alone finds nothing. -/
theorem attempt_eq_none (enc : Encoding d o isLazy z x m) (hn : d.Normalized)
    (cut : o.probabilityCut = true ∨ isLazy = true) (free : ∀ e ∈ o.fixed.entries, e.1 ∉ d.chance)
    (small : z.vars.length < Word.count64) {picks : List ℕ} (hp : Picks z.blocks picks)
    {t : Path × ℕ} (only : x.vars = [t])
    (unfit : ¬ ((strategyOf z (bitsOf z.blocks picks)).Follows d t.1 ∧ d.weight t.1 = 1)) :
    (plan (m.withObjective direction e.expr)).attempt 0 picks = .ok none := by
  have choice := DecisionVariables.isChoice_bitsOf enc.decisions hp
  set ss := settlings (m.withObjective direction e.expr) with hss
  set assigned := (Space.mk z.blocks []).assign picks (Array.replicate m.vars.size (0 : Exact))
    with hassigned
  have size : assigned.size = z.vars.length + x.vars.length := by
    rw [hassigned, size_assign, Array.size_replicate, enc.size_eq]
  have ht : t ∈ x.vars := only ▸ List.mem_singleton_self t
  have run : settleAll 0 ss assigned = .ok none := by
    have index := (isShare_index_iff direction (e := e) enc).mpr ⟨t, ht, rfl⟩
    rw [← hss] at index
    cases hs : ss with
    | nil =>
      rw [hs] at index
      cases index
    | cons s rest =>
      obtain ⟨u, hu, place, bounds, confines, -⟩ :=
        var_of_mem_settlings (s := s) (e := e) direction enc
          (hss ▸ hs ▸ List.mem_cons_self)
      have room := interval_room enc hn cut free small size
        (fun v hv => getD_assigned enc hp hv) hu
      obtain rfl : u = t := List.mem_singleton.mp (only ▸ hu)
      rw [← bounds, ← confines, ← place] at room
      rw [settleAll, settle_eq_none room fun r => not_room enc hn small choice only unfit r]
  refine attempt_of_unsettled (p := plan (m.withObjective direction e.expr)) ?_
  rw [plan_eq enc hn]
  exact run

/-! ## What is checked -/

/-- The mass that a completion leaves out: that of the paths that follow but are not raised. -/
def lostMass (d : Diagram Exact) (o : PathVariableOptions Exact) (x : PathVariables Exact)
    (sign : ℚ) (σ : Strategy) : ℚ :=
  ∑ p ∈ (σ.followers d).filter (¬ Raised d o x sign ·), d.weight p

/-- The only path variable of a carried strategy belongs to a certain path that follows. -/
theorem certain_of_carried {σ : Strategy} (enc : Encoding d o isLazy z x m) (hn : d.Normalized)
    (covers : σ.Covers d) (carried : σ.Carried d x) {t : Path × ℕ} (only : x.vars = [t]) :
    σ.Follows d t.1 ∧ d.weight t.1 = 1 := by
  rw [covers.carried_iff hn enc.paths] at carried
  have total := sum_weight_followers hn covers
  have others : ∀ p ∈ σ.followers d, p ≠ t.1 → d.weight p = 0 := by
    intro p hp differ
    obtain ⟨inside, follows⟩ := Strategy.mem_followers.mp hp
    by_contra weight
    have member := carried p inside follows weight
    rw [only, List.map_singleton, List.mem_singleton] at member
    exact differ member
  have member : t.1 ∈ σ.followers d := by
    by_contra missing
    rw [Finset.sum_eq_zero fun p hp => others p hp fun same => missing (same ▸ hp)] at total
    exact zero_ne_one total
  rw [Finset.sum_eq_single_of_mem t.1 member others] at total
  exact ⟨(Strategy.mem_followers.mp member).2, total⟩

/-- Of a carried strategy, a completion satisfies a program as far as it leaves out no more than
the tolerance. -/
theorem satisfies_completion_iff (enc : Encoding d o isLazy z x m) (hn : d.Normalized)
    (free : ∀ e ∈ o.fixed.entries, e.1 ∉ d.chance) (small : z.vars.length < Word.count64)
    {tolerance : ℚ} (nonneg : 0 ≤ tolerance) {picks : List ℕ} (hp : Picks z.blocks picks)
    (carried : (strategyOf z (bitsOf z.blocks picks)).Carried d x) (sign : ℚ) :
    Satisfies d o z x tolerance (completion d o z x sign picks) ↔
      x.scale.rational * lostMass d o x sign (strategyOf z (bitsOf z.blocks picks)) ≤
        tolerance := by
  set σ := strategyOf z (bitsOf z.blocks picks) with hσ
  have choice := DecisionVariables.isChoice_bitsOf enc.decisions hp
  have covers := choice.covers_strategyOf enc.decisions hn.arranged hn.assembled small
  have room {t : Path × ℕ} (ht : t ∈ x.vars) :=
    (picked_settledShare enc hn small choice ht
      (fun only => certain_of_carried enc hn covers carried only) sign).holds
  have bit {v : ℕ} (hv : v ∈ z.vars) :
      completion d o z x sign picks v = bitsOf z.blocks picks v := enc.combine_bit hv
  have share {t : Path × ℕ} (ht : t ∈ x.vars) :
      completion d o z x sign picks t.2 = settledShare d o x sign σ t.1 := enc.combine_share ht
  have selected {t : Path × ℕ} (ht : t ∈ x.vars) {v : ℕ}
      (hv : v ∈ PathVariables.selectedAt z t.1 d.decision) :=
    bit (enc.selectedAt_subset hn small (enc.paths.inRange ht) v hv)
  have mass : ∑ p ∈ d.paths, d.weight p * shareAt x (completion d o z x sign picks) p =
      1 - lostMass d o x sign σ := by
    have split : ∑ p ∈ (σ.followers d).filter (Raised d o x sign), d.weight p +
        lostMass d o x sign σ = 1 := by
      rw [← sum_weight_followers hn covers]
      exact Finset.sum_filter_add_sum_filter_not _ _ _
    rw [← split, add_sub_cancel_right, Strategy.followers, Finset.filter_filter,
      Finset.sum_filter]
    refine Finset.sum_congr rfl fun p hp => ?_
    by_cases mem : p ∈ x.vars.map (·.1)
    · obtain ⟨t, ht, rfl⟩ := List.mem_map.mp mem
      rw [enc.paths.shareAt_eq ht, share ht, settledShare, mul_ite, mul_one, mul_zero]
    · rw [shareAt_of_notMem mem, mul_zero]
      split
      case isTrue both =>
        by_contra weight
        exact mem ((covers.carried_iff hn enc.paths).mp carried p (Diagram.mem_paths.mp hp)
          both.1 (Ne.symm weight))
      case isFalse => rfl
  have cut : x.cutSense.Passes tolerance ((x.vars.map fun t =>
      d.weight t.1 * x.scale.rational * completion d o z x sign picks t.2).sum -
        x.scale.rational) ↔ x.scale.rational * lostMass d o x sign σ ≤ tolerance := by
    have lost_nonneg : 0 ≤ lostMass d o x sign σ := Finset.sum_nonneg fun p hp =>
      hn.weighed.weight_nonneg (Strategy.mem_followers.mp (Finset.mem_filter.mp hp).1).1
    have product_nonneg := mul_nonneg enc.paths.scale_eq.2.le lost_nonneg
    have slack : x.scale.rational * (1 - lostMass d o x sign σ) - x.scale.rational =
        -(x.scale.rational * lostMass d o x sign σ) := by ring
    rw [enc.cutSense_eq hn free, enc.paths.sum_scaled hn, mass, slack, Sense.Passes, abs_neg,
      abs_of_nonneg product_nonneg]
  refine ⟨fun h => cut.mp h.cut, fun low => ⟨fun g hg => ?_, fun t ht v hv => ?_,
    fun bound t ht => ?_, cut.mpr low⟩⟩
  · rw [List.map_congr_left fun v hv => bit (enc.mem_vars_of_mem_blocks hg hv),
      choice.one g hg, sub_self, abs_zero]
    exact nonneg
  · rw [share ht, selected ht hv]
    linarith [(room ht).linked v hv]
  · rw [share ht, List.map_congr_left fun v hv => selected ht hv]
    linarith [(room ht).bound bound]

end Attempts

end Influence
