import Mathlib.Data.Rat.Sqrt
import Influence.Proofs.Distribution
import Influence.Proofs.ExactAssignments

/-!
# The expected utility program

The exact assignments of the program for the expected utility are the strategies whose
compatible paths of positive probability all have variables
(`feasible_iff_strategy`): an assignment reads back as such a strategy, its path variables are
one on the compatible paths and zero on the others, and its objective is the expected utility;
and every such strategy is read back from one assignment and no other.
-/

namespace Influence

open Extended Program

/-! ## Strategies that a program admits -/

namespace Strategy

/-- The compatible paths of positive probability all have variables. -/
def Carried (d : Diagram Exact) (x : PathVariables Exact) (σ : Strategy) : Prop :=
  ∃ ps, σ.compatiblePaths d .empty = .ok ps ∧
    ∀ p ∈ ps, d.weight p ≠ 0 → (x.get? p).isSome = true

/-- No compatible path of positive probability takes a forbidden combination or leaves a forced
state. -/
def Admitted (d : Diagram Exact) (o : PathVariableOptions Exact) (σ : Strategy) : Prop :=
  ∃ ps, σ.compatiblePaths d .empty = .ok ps ∧ ∀ p ∈ ps, d.weight p ≠ 0 →
    (∀ f ∈ o.forbidden, f.covers p = false) ∧
      ∀ i s, o.fixed.get? i = some s → p[i]? = some s

/-- The solution encodes the strategy: it reads back as the strategy, and its path variables are
one on the compatible paths and zero on the others. -/
structure Encoded (d : Diagram Exact) (z : DecisionVariables) (x : PathVariables Exact)
    (s : Solution Exact) (σ : Strategy) : Prop where
  strategy : z.strategy s = .ok σ
  covers : σ.Covers d
  shares : ∃ ps, σ.compatiblePaths d .empty = .ok ps ∧
    ∀ t ∈ x.vars, s.value t.2 = if t.1 ∈ ps then 1 else 0

section Covers

variable {d : Diagram Exact} {z : DecisionVariables} {o : PathVariableOptions Exact}
  {x : PathVariables Exact} {start : ℕ} {σ : Strategy}

private theorem exists_compatiblePaths_iff (covers : σ.Covers d) (hn : d.Normalized)
    {P : Path → Prop} :
    (∃ ps, σ.compatiblePaths d .empty = .ok ps ∧ ∀ p ∈ ps, P p) ↔
      ∀ p, inRange d.states p = true → σ.Follows d p → P p := by
  obtain ⟨ps, run, -, member⟩ := covers.compatiblePaths_eq_ok hn.arranged hn.assembled
  constructor
  · rintro ⟨qs, run', h⟩ p hp follows
    obtain rfl : ps = qs := Except.ok.inj (run.symm.trans run')
    exact h p ((member p).mpr ⟨hp, follows⟩)
  · exact fun h => ⟨ps, run, fun p hp => h p ((member p).mp hp).1 ((member p).mp hp).2⟩

theorem Covers.carried_iff (covers : σ.Covers d) (hn : d.Normalized)
    (h : PathVariables.LaidOut d z o x start) :
    σ.Carried d x ↔ ∀ p, inRange d.states p = true → σ.Follows d p → d.weight p ≠ 0 →
      p ∈ x.vars.map (·.1) := by
  simp only [Carried, h.isSome_get?_iff]
  exact exists_compatiblePaths_iff covers hn

/-- The paths with variables are those that are neither forbidden nor out of the forced
states. -/
theorem Covers.carried_iff_admitted (covers : σ.Covers d) (hn : d.Normalized)
    (h : PathVariables.LaidOut d z o x start) : σ.Carried d x ↔ σ.Admitted d o := by
  rw [covers.carried_iff hn h, Admitted, exists_compatiblePaths_iff covers hn]
  refine forall₄_congr fun p hp _ weight => ?_
  rw [h.mem_paths_iff hn]
  exact ⟨fun member => member.2.2, fun member => ⟨hp, weight, member⟩⟩

end Covers

end Strategy

/-! ## The value of the objective -/

/-- What an objective over path variables counts are numbers, as far as it is known. -/
structure PathVariables.Measured (d : Diagram Exact) (x : PathVariables Exact) : Prop where
  scale : x.scale = finite x.scale.rational ∧ 0 < x.scale.rational
  shift : d.shift = finite d.shift.rational
  weight : ∀ t ∈ x.vars, d.probabilityOf t.1 = .ok (finite (d.weight t.1))
  utility : ∀ t ∈ x.vars, ∀ u, d.rawPathUtility t.1 = .ok u → u = finite (d.utility t.1)

theorem PathVariables.LaidOut.measured {d : Diagram Exact} {z : DecisionVariables}
    {o : PathVariableOptions Exact} {x : PathVariables Exact} {start : ℕ}
    (h : PathVariables.LaidOut d z o x start) (hn : d.Normalized) : x.Measured d where
  scale := h.scale_eq
  shift := hn.shift_eq
  weight _ ht := hn.weighed.probabilityOf_eq (h.inRange ht)
  utility _ _ _ := hn.eq_finite_of_rawPathUtility

namespace ExpectedUtility

variable {d : Diagram Exact} {z : DecisionVariables} {o : PathVariableOptions Exact}
  {x : PathVariables Exact} {start : ℕ} {e : ExpectedUtility Exact}

/-- The coefficient of a path variable in the objective. -/
def coefficient (d : Diagram Exact) (x : PathVariables Exact) (p : Path) : ℚ :=
  d.weight p * (d.utility p + d.shift.rational) * x.scale.rational

/-- The objective is built where all paths with variables have utilities, and what it is made of. -/
theorem build_eq_ok_iff (h : x.Measured d) : build d x = .ok e ↔
    (∀ t ∈ x.vars, d.rawPathUtility t.1 = .ok (finite (d.utility t.1))) ∧
      e = ⟨LinearExpr.ofTerms (x.vars.map fun t => (t.2, finite (coefficient d x t.1))),
        PathVariables.LaidOut.massOf d x, d.shift, x.scale⟩ := by
  have made (known : ∀ t ∈ x.vars, d.rawPathUtility t.1 = .ok (finite (d.utility t.1))) :
      build d x =
        .ok ⟨LinearExpr.ofTerms (x.vars.map fun t => (t.2, finite (coefficient d x t.1))),
          PathVariables.LaidOut.massOf d x, d.shift, x.scale⟩ := by
    unfold build
    rw [except_mapM_eq_ok_map (g := fun t : Path × ℕ => (t.2, finite (coefficient d x t.1)))
      fun t ht => ?_, PathVariables.LaidOut.mass_eq_ok_of_known h.scale.1 h.weight]
    · rfl
    · dsimp only
      rw [h.weight t ht, Diagram.shiftedPathUtility, known t ht, coefficient, ← finite_mul,
        ← finite_mul, ← finite_add, ← h.scale.1, ← h.shift]
      rfl
  constructor
  · intro run
    obtain ⟨terms, hterms, -⟩ := except_bind_eq_ok.mp run
    have known (t : Path × ℕ) (ht : t ∈ x.vars) :
        d.rawPathUtility t.1 = .ok (finite (d.utility t.1)) := by
      obtain ⟨_, -, step⟩ := except_eq_ok_of_mem_mapM hterms ht
      obtain ⟨_, -, step⟩ := except_bind_eq_ok.mp step
      obtain ⟨_, shifted, -⟩ := except_bind_eq_ok.mp step
      obtain ⟨u, raw, -⟩ := except_bind_eq_ok.mp shifted
      rw [raw, h.utility t ht u raw]
    exact ⟨known, Except.ok.inj (run.symm.trans (made known))⟩
  · rintro ⟨known, rfl⟩
    exact made known

/-- What an objective that was built is made of. -/
theorem build_eq_ok (h : PathVariables.LaidOut d z o x start) (hn : d.Normalized)
    (run : build d x = .ok e) :
    (∀ t ∈ x.vars, d.rawPathUtility t.1 = .ok (finite (d.utility t.1))) ∧
      e = ⟨LinearExpr.ofTerms (x.vars.map fun t => (t.2, finite (coefficient d x t.1))),
        PathVariables.LaidOut.massOf d x, d.shift, x.scale⟩ :=
  (build_eq_ok_iff (h.measured hn)).mp run

theorem evaluate_mass {values : Array Exact} {a : ℕ → ℚ}
    (hv : ∀ t ∈ x.vars, values.getD t.2 0 = finite (a t.2)) :
    (PathVariables.LaidOut.massOf d x).evaluate values =
      finite (x.vars.map fun t => d.weight t.1 * x.scale.rational * a t.2).sum := by
  obtain ⟨isFinite, mass, named⟩ := PathVariables.LaidOut.massOf_spec d x a
  rw [LinearExpr.evaluate_eq isFinite (a := a) fun t ht => ?_, mass]
  obtain ⟨u, hu, same⟩ := List.mem_map.mp (named t ht)
  exact same ▸ hv u hu

/-- The objective counts scaled and shifted utilities. -/
theorem evaluate_expr (h : x.Measured d) (run : build d x = .ok e) {values : Array Exact}
    {a : ℕ → ℚ} (hv : ∀ t ∈ x.vars, values.getD t.2 0 = finite (a t.2)) :
    e.expr.IsFinite ∧ (∀ t ∈ e.expr.terms, values.getD t.1 0 = finite (a t.1)) ∧
      e.expr.evaluate values =
        finite (x.vars.map fun t => coefficient d x t.1 * a t.2).sum := by
  obtain ⟨-, rfl⟩ := (build_eq_ok_iff h).mp run
  set terms := x.vars.map fun t => (t.2, (finite (coefficient d x t.1) : Exact)) with hterms
  have isFinite : (LinearExpr.ofTerms terms).IsFinite := LinearExpr.isFinite_ofTerms fun t ht => by
    obtain ⟨u, -, rfl⟩ := List.mem_map.mp ht
    rfl
  have named : ∀ t ∈ terms, values.getD t.1 0 = finite (a t.1) := by
    intro t ht
    obtain ⟨u, hu, rfl⟩ := List.mem_map.mp ht
    exact hv u hu
  refine ⟨isFinite, named, ?_⟩
  have value : LinearExpr.termsAt terms a =
      (x.vars.map fun t => coefficient d x t.1 * a t.2).sum := by
    rw [LinearExpr.termsAt, hterms, List.map_map]
    rfl
  rw [LinearExpr.evaluate_eq isFinite named, LinearExpr.valueAt_ofTerms, value]

/-- The objective of the program merges the terms. -/
theorem evaluate_compact (h : PathVariables.LaidOut d z o x start) (hn : d.Normalized)
    (run : build d x = .ok e) {values : Array Exact} {a : ℕ → ℚ}
    (hv : ∀ t ∈ x.vars, values.getD t.2 0 = finite (a t.2)) :
    e.expr.compact.evaluate values = finite (x.scale.rational * ∑ p ∈ d.paths,
      d.weight p * (d.utility p + d.shift.rational) * shareAt x a p) := by
  obtain ⟨isFinite, named, value⟩ := evaluate_expr (h.measured hn) run hv
  have total : e.expr.evaluate values = finite (x.scale.rational * ∑ p ∈ d.paths,
      d.weight p * (d.utility p + d.shift.rational) * shareAt x a p) := by
    rw [value, h.sum_vars hn (coefficient d x), Finset.mul_sum]
    refine congrArg finite (Finset.sum_congr rfl fun p _ => ?_)
    rw [coefficient]
    ring
  rw [← total, LinearExpr.evaluate_eq isFinite named, LinearExpr.evaluate_eq isFinite.compact,
    LinearExpr.valueAt_compact isFinite]
  intro t ht
  obtain ⟨u, hu, same⟩ := List.mem_map.mp (LinearExpr.mem_terms_of_mem_compact ht)
  exact same ▸ named u hu

/-- The value of a solution takes the shift and the scale off again, term by term. -/
theorem value_eq_sum (h : x.Measured d) (run : build d x = .ok e) {s : Solution Exact}
    {a : ℕ → ℚ} (hv : ∀ t ∈ x.vars, s.values.getD t.2 0 = finite (a t.2)) :
    e.value s = finite (x.vars.map fun t => d.weight t.1 * d.utility t.1 * a t.2).sum := by
  have expr := (evaluate_expr h run hv).2.2
  have mass := evaluate_mass (d := d) hv
  obtain ⟨-, rfl⟩ := (build_eq_ok_iff h).mp run
  obtain ⟨scale, pos⟩ := h.scale
  have unscaled (y : ℚ) : finite y / x.scale = finite (y / x.scale.rational) := by
    conv_lhs => rw [scale]
    exact finite_div y pos.ne'
  have split : (x.vars.map fun t => coefficient d x t.1 * a t.2).sum =
      (x.vars.map fun t => d.weight t.1 * d.utility t.1 * a t.2).sum * x.scale.rational +
        d.shift.rational * (x.vars.map fun t => d.weight t.1 * x.scale.rational * a t.2).sum := by
    rw [← List.sum_map_mul_right, ← List.sum_map_mul_left, ← List.sum_map_add]
    refine congrArg List.sum (List.map_congr_left fun t _ => ?_)
    rw [coefficient]
    ring
  unfold value
  rw [expr, mass, h.shift, finite_mul, finite_sub, unscaled, split,
    add_sub_cancel_right, mul_div_cancel_right₀ _ pos.ne']

/-- The value of a solution: every path counts its probability times its utility as far as its
variable goes. -/
theorem value_eq (h : PathVariables.LaidOut d z o x start) (hn : d.Normalized)
    (run : build d x = .ok e) {s : Solution Exact} {a : ℕ → ℚ}
    (hv : ∀ t ∈ x.vars, s.values.getD t.2 0 = finite (a t.2)) :
    e.value s = finite (∑ p ∈ d.paths, d.weight p * d.utility p * shareAt x a p) := by
  rw [value_eq_sum (h.measured hn) run hv, h.sum_vars hn fun p => d.weight p * d.utility p]

end ExpectedUtility

/-! ## Assignments and strategies -/

section Encoded

variable {d : Diagram Exact} {o : PathVariableOptions Exact} {isLazy : Bool}
  {z : DecisionVariables} {x : PathVariables Exact} {m : Program Exact} {σ : Strategy}

open DecisionVariables (strategyOf IsChoice bitsOf picksOf)

/-- An assignment that gives one to the paths that follow the strategy of its bits, and zero to the
others, encodes this strategy. -/
theorem Encoding.encoded_of_follows (enc : Encoding d o isLazy z x m) (hn : d.Weighed)
    (small : z.vars.length < Word.count64) {s : Solution Exact}
    (assignment : IsAssignment z x s.values) (choice : IsChoice z (reading s.values))
    (shares : ∀ t ∈ x.vars, reading s.values t.2 =
      if (strategyOf z (reading s.values)).Follows d t.1 then 1 else 0) :
    Strategy.Encoded d z x s (strategyOf z (reading s.values)) := by
  have covers := choice.covers_strategyOf enc.decisions hn.arranged hn.assembled small
  obtain ⟨ps, run, -, member⟩ := covers.compatiblePaths_eq_ok hn.arranged hn.assembled
  have bit {v : ℕ} (hv : v ∈ z.vars) : s.value v = finite (reading s.values v) :=
    assignment.isFinite v ((enc.mem_vars_lt hv).trans_le (Nat.le_add_right _ _))
  refine ⟨DecisionVariables.strategy_eq_ok choice enc.decisions hn.arranged small fun v hv =>
    bit hv, covers, ps, run, fun t ht => ?_⟩
  have value : s.value t.2 = finite (reading s.values t.2) :=
    assignment.isFinite t.2 (enc.paths.var_mem ht).2
  have follows := (member t.1).trans (and_iff_right (enc.paths.inRange ht))
  rw [value, shares t ht, ← if_congr follows rfl rfl]
  split <;> rfl

/-- An assignment that satisfies the constraints before those of the objective encodes the strategy
that its bits make, and that strategy's paths are carried. -/
theorem Encoding.encoded_of_satisfies (enc : Encoding d o isLazy z x m) (hn : d.Normalized)
    (free : ∀ e ∈ o.fixed.entries, e.1 ∉ d.chance) (small : z.vars.length < Word.count64)
    {s : Solution Exact} (assignment : IsAssignment z x s.values)
    (satisfies : Satisfies d o z x 0 (reading s.values)) :
    Strategy.Encoded d z x s (strategyOf z (reading s.values)) ∧
      (strategyOf z (reading s.values)).Carried d x := by
  have choice := satisfies.isChoice assignment.bits
  have share {p : Path} (hp : inRange d.states p = true) :=
    satisfies.shareAt_eq enc hn free small assignment.bits assignment.shares hp
  have encoded := enc.encoded_of_follows hn small assignment choice fun t ht => by
    have hp := enc.paths.inRange ht
    rw [← enc.paths.shareAt_eq (a := reading s.values) ht]
    split
    case isTrue follows => exact (share hp).1 follows (enc.paths.weight_pos hn ht).ne'
    case isFalse apart => exact (share hp).2 apart
  refine ⟨encoded, ?_⟩
  rw [encoded.covers.carried_iff hn enc.paths]
  intro p hp follows weight
  by_contra missing
  have one := (share hp).1 follows weight
  rw [shareAt_of_notMem missing] at one
  exact zero_ne_one one

theorem Encoding.encoded_of_isFeasible (enc : Encoding d o isLazy z x m) (hn : d.Normalized)
    (cut : o.probabilityCut = true ∨ isLazy = true) (free : ∀ e ∈ o.fixed.entries, e.1 ∉ d.chance)
    (small : z.vars.length < Word.count64) {s : Solution Exact}
    (feasible : m.isFeasible s.values 0 = true) :
    Strategy.Encoded d z x s (strategyOf z (reading s.values)) ∧
      (strategyOf z (reading s.values)).Carried d x := by
  obtain ⟨-, assignment, satisfies⟩ := (enc.isFeasible_iff hn cut small).mp feasible
  exact enc.encoded_of_satisfies hn free small assignment satisfies

/-- The values of the path variables of a solution that encodes a strategy. -/
theorem Strategy.Encoded.share_eq {s : Solution Exact} (encoded : Strategy.Encoded d z x s σ)
    (hn : d.Normalized) {start : ℕ} (h : PathVariables.LaidOut d z o x start) {t : Path × ℕ}
    (ht : t ∈ x.vars) : s.values.getD t.2 0 = finite (reading s.values t.2) ∧
      reading s.values t.2 = if σ.Follows d t.1 then 1 else 0 := by
  obtain ⟨ps, paths, shares⟩ := encoded.shares
  obtain ⟨qs, paths', -, member⟩ := encoded.covers.compatiblePaths_eq_ok hn.arranged hn.assembled
  obtain rfl : ps = qs := Except.ok.inj (paths.symm.trans paths')
  have follows := (member t.1).trans (and_iff_right (h.inRange ht))
  have share : s.values.getD t.2 0 = if t.1 ∈ ps then 1 else 0 := shares t ht
  rw [reading, share]
  by_cases mem : t.1 ∈ ps
  · rw [if_pos mem, if_pos (follows.mp mem)]
    exact ⟨rfl, rfl⟩
  · rw [if_neg mem, if_neg fun h => mem (follows.mpr h)]
    exact ⟨rfl, rfl⟩

/-- A sum over the shares of a carried strategy is the sum over its compatible paths. -/
theorem Strategy.Encoded.sum_shares {s : Solution Exact} (encoded : Strategy.Encoded d z x s σ)
    (carried : σ.Carried d x) (hn : d.Normalized) {start : ℕ}
    (h : PathVariables.LaidOut d z o x start) (f : Path → ℚ) :
    ∑ p ∈ d.paths, d.weight p * f p * shareAt x (reading s.values) p =
      ∑ p ∈ σ.followers d, d.weight p * f p := by
  rw [encoded.covers.carried_iff hn h] at carried
  rw [Strategy.followers, Finset.sum_filter]
  refine Finset.sum_congr rfl fun p hp => ?_
  by_cases mem : p ∈ x.vars.map (·.1)
  · obtain ⟨t, ht, rfl⟩ := List.mem_map.mp mem
    rw [h.shareAt_eq ht, (encoded.share_eq hn h ht).2, mul_ite, mul_one, mul_zero]
  · rw [shareAt_of_notMem mem, mul_zero]
    split
    case isTrue follows =>
      have weight : d.weight p = 0 := by
        by_contra weight
        exact mem (carried p (Diagram.mem_paths.mp hp) follows weight)
      rw [weight, zero_mul]
    case isFalse => rfl

/-- The value of a solution that encodes a carried strategy is the expected utility. -/
theorem Strategy.Encoded.value_eq {s : Solution Exact} (encoded : Strategy.Encoded d z x s σ)
    (carried : σ.Carried d x) (hn : d.Normalized) {start : ℕ}
    (h : PathVariables.LaidOut d z o x start) {e : ExpectedUtility Exact}
    (run : ExpectedUtility.build d x = .ok e) : e.value s = finite (σ.expectation d) := by
  rw [ExpectedUtility.value_eq h hn run fun t ht => (encoded.share_eq hn h ht).1,
    encoded.sum_shares carried hn h, encoded.covers.expectation_eq hn]

/-- The objective that the search sees is the expected utility, shifted and scaled. -/
theorem Strategy.Encoded.evaluate_eq {s : Solution Exact} (encoded : Strategy.Encoded d z x s σ)
    (carried : σ.Carried d x) (hn : d.Normalized) {start : ℕ}
    (h : PathVariables.LaidOut d z o x start) {e : ExpectedUtility Exact}
    (run : ExpectedUtility.build d x = .ok e) : e.expr.compact.evaluate s.values =
      finite (x.scale.rational * (σ.expectation d + d.shift.rational)) := by
  have value := ExpectedUtility.evaluate_compact h hn run fun t ht => (encoded.share_eq hn h ht).1
  have split : ∑ p ∈ σ.followers d, d.weight p * (d.utility p + d.shift.rational) =
      σ.expectation d + d.shift.rational := by
    simp only [mul_add, Finset.sum_add_distrib, ← Finset.sum_mul,
      sum_weight_followers hn encoded.covers, one_mul, encoded.covers.expectation_eq hn]
  rw [value, encoded.sum_shares carried hn h, split]

/-- The bits of a strategy, and one for the variables of the paths that follow it. -/
def assignmentOf (d : Diagram Exact) (z : DecisionVariables) (x : PathVariables Exact)
    (σ : Strategy) : ℕ → ℚ :=
  combine z x (bitsOf z.blocks (picksOf z σ)) fun p => if σ.Follows d p then 1 else 0

/-- The assignment of a strategy is one of bits and shares that reads back as the strategy. -/
theorem Encoding.assignmentOf_spec (enc : Encoding d o isLazy z x m) (hn : d.Weighed)
    (covers : σ.Covers d) {values : Array Exact}
    (made : values = valuesOf m.vars.size (assignmentOf d z x σ)) :
    values.size = z.vars.length + x.vars.length ∧ IsAssignment z x values ∧
      IsChoice z (reading values) ∧
      (∀ i ∈ d.decision, (strategyOf z (reading values)).local? i = σ.local? i) ∧
      ∀ t ∈ x.vars, reading values t.2 =
        if (strategyOf z (reading values)).Follows d t.1 then 1 else 0 := by
  have agree {v : ℕ} (hv : v < z.vars.length + x.vars.length) :
      values.getD v 0 = finite (assignmentOf d z x σ v) ∧
        reading values v = assignmentOf d z x σ v := by
    rw [← enc.size_eq] at hv
    rw [made]
    exact ⟨getD_valuesOf hv _, reading_valuesOf hv _⟩
  have bit {v : ℕ} (hv : v ∈ z.vars) : reading values v = bitsOf z.blocks (picksOf z σ) v := by
    rw [(agree ((enc.mem_vars_lt hv).trans_le (Nat.le_add_right _ _))).2, assignmentOf, enc.combine_bit hv]
  have share {t : Path × ℕ} (ht : t ∈ x.vars) :
      reading values t.2 = if σ.Follows d t.1 then 1 else 0 := by
    rw [(agree (enc.paths.var_mem ht).2).2, assignmentOf, enc.combine_share ht]
  have picks := DecisionVariables.picks_picksOf covers enc.decisions hn.arranged hn.assembled
  have choice := (DecisionVariables.isChoice_bitsOf enc.decisions picks).congr enc.decisions
    fun v hv => bit hv
  have same : ∀ i ∈ d.decision, (strategyOf z (reading values)).local? i = σ.local? i := by
    intro i hi
    rw [DecisionVariables.strategyOf_congr enc.decisions fun v hv => bit hv,
      DecisionVariables.local?_strategyOf_bitsOf covers enc.decisions hn.arranged hn.assembled hi]
  refine ⟨?_, ⟨fun v hv => ?_, choice.bits, fun t ht => ?_⟩, choice, same, fun t ht => ?_⟩
  · rw [made, size_valuesOf, enc.size_eq]
  · rw [(agree hv).1, (agree hv).2]
  · rw [share ht]
    split <;> norm_num
  · rw [share ht]
    exact if_congr (Strategy.follows_congr same).symm rfl rfl

/-- The assignment of a carried strategy is feasible and reads back as the strategy. -/
theorem Encoding.isFeasible_assignmentOf (enc : Encoding d o isLazy z x m) (hn : d.Normalized)
    (cut : o.probabilityCut = true ∨ isLazy = true) (free : ∀ e ∈ o.fixed.entries, e.1 ∉ d.chance)
    (small : z.vars.length < Word.count64) (covers : σ.Covers d) (carried : σ.Carried d x) :
    m.isFeasible (valuesOf m.vars.size (assignmentOf d z x σ)) 0 = true ∧
      ∀ i ∈ d.decision,
        (strategyOf z (reading (valuesOf m.vars.size (assignmentOf d z x σ)))).local? i =
          σ.local? i := by
  obtain ⟨size, assignment, choice, same, shares⟩ := enc.assignmentOf_spec hn covers rfl
  refine ⟨(enc.isFeasible_iff hn cut small).mpr ⟨size, assignment, ?_⟩, same⟩
  refine satisfies_of_follows enc hn free small choice shares fun p hp follows weight => ?_
  exact (covers.carried_iff hn enc.paths).mp carried p hp
    ((Strategy.follows_congr same).mp follows) weight

/-- Feasible assignments with the same strategy are the same. -/
theorem Encoding.values_ext (enc : Encoding d o isLazy z x m) (hn : d.Normalized)
    (cut : o.probabilityCut = true ∨ isLazy = true) (free : ∀ e ∈ o.fixed.entries, e.1 ∉ d.chance)
    (small : z.vars.length < Word.count64) {values values' : Array Exact}
    (feasible : m.isFeasible values 0 = true) (feasible' : m.isFeasible values' 0 = true)
    (same : ∀ i ∈ d.decision, (strategyOf z (reading values')).local? i =
      (strategyOf z (reading values)).local? i) : values' = values := by
  obtain ⟨size, assignment, satisfies⟩ := (enc.isFeasible_iff hn cut small).mp feasible
  obtain ⟨size', assignment', satisfies'⟩ := (enc.isFeasible_iff hn cut small).mp feasible'
  have choice := satisfies.isChoice assignment.bits
  have choice' := satisfies'.isChoice assignment'.bits
  have bits := choice.eq_of_local?_eq choice' enc.decisions hn.arranged same
  have shares {t : Path × ℕ} (ht : t ∈ x.vars) : reading values' t.2 = reading values t.2 := by
    have hp := enc.paths.inRange ht
    have weight := (enc.paths.weight_pos hn ht).ne'
    have share := satisfies.shareAt_eq enc hn free small assignment.bits assignment.shares hp
    have share' := satisfies'.shareAt_eq enc hn free small assignment'.bits assignment'.shares hp
    rw [enc.paths.shareAt_eq ht] at share share'
    rw [Strategy.follows_congr same] at share'
    by_cases follows : (strategyOf z (reading values)).Follows d t.1
    · rw [share.1 follows weight, share'.1 follows weight]
    · rw [share.2 follows, share'.2 follows]
  refine Array.ext (size'.trans size.symm) fun v hv' hv => ?_
  have inside : v < z.vars.length + x.vars.length := size ▸ hv
  have agree : reading values' v = reading values v := by
    by_cases low : v < z.vars.length
    · refine bits v ?_
      rw [enc.decisions.vars, List.mem_range'_1, Nat.zero_add]
      exact ⟨Nat.zero_le v, low⟩
    · have member : v ∈ x.vars.map (·.2) := by
        rw [enc.paths.vars, List.mem_range'_1]
        exact ⟨Nat.le_of_not_lt low, inside⟩
      obtain ⟨t, ht, rfl⟩ := List.mem_map.mp member
      exact shares ht
  have entry {ws : Array Exact} (h : v < ws.size) : ws[v] = ws.getD v 0 := by simp [Array.getD, h]
  rw [entry hv', entry hv, assignment'.isFinite v inside, assignment.isFinite v inside, agree]

end Encoded

/-! ## The program of a file -/

/-- The exact assignments of the program for the expected utility are the strategies that it
admits.  Variables are numbered by machine words. -/
theorem feasible_iff_strategy [Root ℚ] {f : DiagramFile Exact} {d : Diagram Exact}
    {o : PathVariableOptions Exact} {c : Compiled Exact} (run : f.compileWith d o = .ok c)
    (kind : f.model.objective.kind = .expectedValue) (hn : d.Normalized)
    (cut : o.probabilityCut = true ∨ f.model.lazyProbabilityCut = true)
    (free : ∀ e ∈ o.fixed.entries, e.1 ∉ d.chance)
    (small : c.program.vars.size < Word.count64) :
    (∀ s : Solution Exact, c.program.isFeasible s.values 0 = true →
      ∃ σ, Strategy.Encoded d c.decisions c.paths s σ ∧ σ.Carried d c.paths ∧ σ.Admitted d o ∧
        c.objective.value s = finite (σ.expectation d) ∧
        ∃ x m, Distribution.ofStrategy d σ = .ok x ∧ x.moments = .ok m ∧
          m.mean = finite (σ.expectation d)) ∧
      ∀ σ : Strategy, σ.Covers d → σ.Carried d c.paths → ∃! values : Array Exact,
        c.program.isFeasible values 0 = true ∧
          ∃ τ, c.decisions.strategy ⟨values, c.program.objective.evaluate values⟩ = .ok τ ∧
            ∀ i ∈ d.decision, τ.local? i = σ.local? i := by
  obtain ⟨m, e, enc, built, objective, program⟩ := DiagramFile.compileWith_expected run kind
  have feasible (values : Array Exact) :
      c.program.isFeasible values 0 = m.isFeasible values 0 := by rw [program]; rfl
  have small : c.decisions.vars.length < Word.count64 := by
    rw [program, Program.withObjective, enc.size_eq] at small
    omega
  refine ⟨fun s hs => ?_, fun σ covers carried => ?_⟩
  · rw [feasible] at hs
    obtain ⟨encoded, carried⟩ := enc.encoded_of_isFeasible hn cut free small hs
    have covers := encoded.covers
    refine ⟨_, encoded, carried, (covers.carried_iff_admitted hn enc.paths).mp carried, ?_, ?_⟩
    · rw [objective]
      exact encoded.value_eq carried hn enc.paths built
    · refine Distribution.mean_ofStrategy covers hn fun p hp follows weight => ?_
      obtain ⟨t, ht, rfl⟩ :=
        List.mem_map.mp ((covers.carried_iff hn enc.paths).mp carried p hp follows weight)
      exact (ExpectedUtility.build_eq_ok enc.paths hn built).1 t ht
  · have read {values : Array Exact} (hv : m.isFeasible values 0 = true) :
        c.decisions.strategy ⟨values, c.program.objective.evaluate values⟩ =
          .ok (DecisionVariables.strategyOf c.decisions (reading values)) :=
      (enc.encoded_of_isFeasible hn cut free small (s := ⟨values, _⟩) hv).1.strategy
    obtain ⟨found, same⟩ := enc.isFeasible_assignmentOf hn cut free small covers carried
    refine ⟨_, ⟨(feasible _).trans found, _, read found, same⟩, ?_⟩
    rintro values ⟨hv, τ, hτ, agree⟩
    rw [feasible] at hv
    obtain rfl := Except.ok.inj (hτ.symm.trans (read hv))
    exact enc.values_ext hn cut free small found hv fun i hi => (agree i hi).trans (same i hi).symm

/-- To bet in the wager gains one on average. -/
theorem feasible_iff_strategy_wager :
    ∃ c : Compiled Exact, (wagerFile false .default).compileWith (wager false)
        ⟨true, [], .empty, true, 1, none⟩ = .ok c ∧
      c.program.isFeasible #[0, 1, 0, 0, 1, 1] 0 = true ∧
      ∃ σ, Strategy.Encoded (wager false) c.decisions c.paths ⟨#[0, 1, 0, 0, 1, 1], 1⟩ σ ∧
        σ.expectation (wager false) = 1 := by
  obtain ⟨c, run, checks⟩ := exists_eq_ok_of_any
    (x := (wagerFile false .default).compileWith (wager false) ⟨true, [], .empty, true, 1, none⟩)
    (fun c => c.program.vars.size == 6 &&
      (c.program.isFeasible #[0, 1, 0, 0, 1, 1] 0 &&
        c.objective.value ⟨#[0, 1, 0, 0, 1, 1], 1⟩ == 1)) (by decide +kernel)
  rw [Bool.and_eq_true, Bool.and_eq_true, beq_iff_eq] at checks
  obtain ⟨size, feasible, value⟩ := checks
  obtain ⟨σ, encoded, -, -, objective, -⟩ := (@feasible_iff_strategy ⟨Rat.sqrt⟩ _ _ _ _ run rfl
    (normalized_wager false) (.inl rfl) (fun e he => (by cases he))
    (by rw [size]; decide)).1 ⟨#[0, 1, 0, 0, 1, 1], 1⟩ feasible
  rw [objective, one_eq_finite, finite_beq, decide_eq_true_eq] at value
  exact ⟨c, run, feasible, σ, encoded, value⟩

end Influence
