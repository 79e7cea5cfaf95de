import Influence.Proofs.Attempts

/-!
# What the search finds

On the program for the expected utility the search accepts the candidates of strategies that
lose no more than the tolerance (`attempt_carried`), and at tolerance zero nothing else
(`attempt_sound`).  What it answers is then optimal (`solve_optimal`), since either no strategy
loses mass or all do.  It may answer that the program is infeasible although every strategy has
a feasible assignment: where all strategies lose mass (`solve_infeasible_iff`).
-/

namespace Influence

open Extended Program Search

section Attempts

variable {d : Diagram Exact} {o : PathVariableOptions Exact} {isLazy : Bool}
  {z : DecisionVariables} {x : PathVariables Exact} {m : Program Exact}
  {e : ExpectedUtility Exact} {direction : Direction}

open DecisionVariables (strategyOf IsChoice bitsOf picksOf Picks)

private theorem all_satisfied_iff (enc : Encoding d o isLazy z x m) (hn : d.Normalized)
    (cut : o.probabilityCut = true ∨ isLazy = true) (small : z.vars.length < Word.count64)
    {values : Array Exact} {a : ℕ → ℚ}
    (hv : ∀ v < m.vars.size, values.getD v 0 = finite (a v)) (tolerance : ℚ) :
    m.constraints.all (·.isSatisfied values (finite tolerance)) = true ↔
      Satisfies d o z x tolerance a := by
  rw [Array.all_eq_true_iff_forall_mem, enc.isSatisfied_iff hn cut small (enc.size_eq ▸ hv)]

variable (direction) in
/-- The candidate of a carried strategy is accepted if it loses no more than the tolerance. -/
theorem attempt_carried (enc : Encoding d o isLazy z x m) (hn : d.Normalized)
    (cut : o.probabilityCut = true ∨ isLazy = true) (free : ∀ e ∈ o.fixed.entries, e.1 ∉ d.chance)
    (small : z.vars.length < Word.count64) (built : ExpectedUtility.build d x = .ok e)
    {tolerance : ℚ} (nonneg : 0 ≤ tolerance) {picks : List ℕ} (hp : Picks z.blocks picks)
    (carried : (strategyOf z (bitsOf z.blocks picks)).Carried d x) :
    ∃ found, (plan (m.withObjective direction e.expr)).attempt (finite tolerance) picks =
        .ok found ∧
      (found.isSome = true ↔ x.scale.rational *
        lostMass d o x direction.sign (strategyOf z (bitsOf z.blocks picks)) ≤ tolerance) := by
  have covers := (DecisionVariables.isChoice_bitsOf enc.decisions hp).covers_strategyOf
    enc.decisions hn.arranged hn.assembled small
  obtain ⟨values, -, completed, run⟩ := attempt_eq_ok direction enc hn cut free
    small built nonneg hp fun t only => certain_of_carried enc hn covers carried only
  refine ⟨_, run, ?_⟩
  rw [← satisfies_completion_iff enc hn free small nonneg hp carried direction.sign,
    ← all_satisfied_iff enc hn cut small completed tolerance]
  split
  case isTrue all => exact iff_of_true rfl all
  case isFalse broken => exact iff_of_false Bool.false_ne_true broken

variable (direction) in
/-- At tolerance zero, what an attempt accepts is feasible and scores its strategy. -/
theorem attempt_sound (enc : Encoding d o isLazy z x m) (hn : d.Normalized)
    (cut : o.probabilityCut = true ∨ isLazy = true) (free : ∀ e ∈ o.fixed.entries, e.1 ∉ d.chance)
    (small : z.vars.length < Word.count64) (built : ExpectedUtility.build d x = .ok e)
    {picks : List ℕ} (hp : Picks z.blocks picks) :
    ∃ found, (plan (m.withObjective direction e.expr)).attempt 0 picks = .ok found ∧
      ∀ s, found = some s → m.isFeasible s.values 0 = true ∧
        strategyOf z (reading s.values) = strategyOf z (bitsOf z.blocks picks) ∧
        s.score = finite (direction.sign * (x.scale.rational *
          ((strategyOf z (bitsOf z.blocks picks)).expectation d + d.shift.rational))) := by
  have choice := DecisionVariables.isChoice_bitsOf enc.decisions hp
  by_cases alone : ∀ t, x.vars = [t] →
      (strategyOf z (bitsOf z.blocks picks)).Follows d t.1 ∧ d.weight t.1 = 1
  swap
  · simp only [not_forall, exists_prop] at alone
    obtain ⟨t, only, unfit⟩ := alone
    exact ⟨none, attempt_eq_none enc hn cut free small hp only unfit, fun s hs => by cases hs⟩
  obtain ⟨values, size, completed, run⟩ := attempt_eq_ok direction enc hn cut free
    small built le_rfl hp alone
  refine ⟨_, run, fun s hs => ?_⟩
  split at hs
  case isFalse => cases hs
  case isTrue all =>
    obtain rfl := Option.some.inj hs
    have read {v : ℕ} (hv : v < m.vars.size) :
        values.getD v 0 = finite (reading values v) ∧
          reading values v = completion d o z x direction.sign picks v := by
      rw [reading, completed v hv]
      exact ⟨rfl, rfl⟩
    have bit {v : ℕ} (hv : v ∈ z.vars) : reading values v = bitsOf z.blocks picks v := by
      have inside : v < m.vars.size :=
        enc.size_eq ▸ (enc.mem_vars_lt hv).trans_le (Nat.le_add_right _ _)
      rw [(read inside).2, completion, enc.combine_bit hv]
    have feasible : m.isFeasible values 0 = true := by
      refine (enc.isFeasible_iff hn cut small).mpr ⟨size.trans enc.size_eq,
        ⟨fun v hv => (read (enc.size_eq ▸ hv)).1, fun v hv => ?_, fun t ht => ?_⟩, ?_⟩
      · rw [bit hv]
        exact choice.bits v hv
      · rw [(read (enc.size_eq ▸ (enc.paths.var_mem ht).2)).2, completion, enc.combine_share ht,
          settledShare]
        split <;> norm_num
      · exact (all_satisfied_iff enc hn cut small (fun v hv => (read hv).1) 0).mp all
    have same := DecisionVariables.strategyOf_congr enc.decisions fun v hv => bit hv
    obtain ⟨encoded, carried⟩ := enc.encoded_of_isFeasible hn cut free small
      (s := ⟨values, 0⟩) feasible
    refine ⟨feasible, same, ?_⟩
    have score := encoded.evaluate_eq carried hn enc.paths built
    rw [same] at score
    rw [score, finite_mul]

/-! ## Lost mass -/

/-- Shifted utilities have the sign that the diagram claims. -/
private theorem shifted_of_sign (hn : d.Normalized) {p : Path} (hp : inRange d.states p = true)
    (raw : d.rawPathUtility p = .ok (finite (d.utility p))) :
    (d.sign = .positive → 0 < d.utility p + d.shift.rational) ∧
      (d.sign = .negative → d.utility p + d.shift.rational < 0) := by
  obtain ⟨_, -, utility⟩ := except_bind_eq_ok.mp raw
  have sum : (finite (d.utility p) + d.shift : Exact) =
      finite (d.utility p + d.shift.rational) := by
    conv_lhs => rw [hn.shift_eq]
    exact finite_add _ _
  refine ⟨fun sign => ?_, fun sign => ?_⟩
  · obtain ⟨r, shifted, bound⟩ := hn.signed.positive sign p hp _ utility
    rw [sum, Extended.finite.injEq] at shifted
    linarith
  · obtain ⟨r, shifted, bound⟩ := hn.signed.negative sign p hp _ utility
    rw [sum, Extended.finite.injEq] at shifted
    linarith

/-- With the linking lower bound left to the sign of the utilities, all path variables are
raised or none is. -/
theorem all_raised_or_none (enc : Encoding d o isLazy z x m) (hn : d.Normalized)
    (built : ExpectedUtility.build d x = .ok e) (auto : o.lowerBound = none)
    (decides : d.decision ≠ []) (direction : Direction) :
    (∀ t ∈ x.vars, Raised d o x direction.sign t.1) ∨
      ∀ t ∈ x.vars, ¬ Raised d o x direction.sign t.1 := by
  by_cases only : x.vars.length = 1
  · exact .inl fun t _ => .inr (.inr only)
  have isEmpty : d.decision.isEmpty = false := by rwa [List.isEmpty_eq_false_iff]
  have known {t : Path × ℕ} (ht : t ∈ x.vars) := shifted_of_sign hn (enc.paths.inRange ht)
    ((ExpectedUtility.build_eq_ok enc.paths hn built).1 t ht)
  have unfolded (p : Path) : Raised d o x direction.sign p ↔ d.sign = .unrestricted ∨
      0 ≤ direction.sign * (d.utility p + d.shift.rational) := by
    unfold Raised PathVariables.bindsBelow
    rw [auto, isEmpty, Option.getD_none, Bool.not_false, Bool.and_true, beq_iff_eq,
      or_iff_left only]
  simp only [unfolded]
  cases hs : d.sign with
  | unrestricted => exact .inl fun _ _ => .inl rfl
  | positive =>
    cases direction with
    | maximize =>
      refine .inl fun t ht => .inr ?_
      rw [Direction.sign, one_mul]
      exact ((known ht).1 hs).le
    | minimize =>
      refine .inr fun t ht => ?_
      have := (known ht).1 hs
      simp only [Direction.sign, reduceCtorEq, false_or, not_le]
      linarith
  | negative =>
    cases direction with
    | maximize =>
      refine .inr fun t ht => ?_
      have := (known ht).2 hs
      simp only [Direction.sign, reduceCtorEq, false_or, not_le]
      linarith
    | minimize =>
      refine .inl fun t ht => .inr ?_
      have := (known ht).2 hs
      rw [Direction.sign]
      linarith

variable {σ : Strategy} {sign : ℚ}

theorem lostMass_eq_zero (enc : Encoding d o isLazy z x m) (hn : d.Normalized)
    (covers : σ.Covers d) (carried : σ.Carried d x)
    (raised : ∀ t ∈ x.vars, Raised d o x sign t.1) : lostMass d o x sign σ = 0 := by
  refine Finset.sum_eq_zero fun p hp => ?_
  obtain ⟨follower, left⟩ := Finset.mem_filter.mp hp
  obtain ⟨inside, follows⟩ := Strategy.mem_followers.mp follower
  by_contra weight
  obtain ⟨t, ht, rfl⟩ := List.mem_map.mp
    ((covers.carried_iff hn enc.paths).mp carried p inside follows weight)
  exact left (raised t ht)

theorem lostMass_eq_one (enc : Encoding d o isLazy z x m) (hn : d.Normalized)
    (covers : σ.Covers d) (carried : σ.Carried d x)
    (lost : ∀ t ∈ x.vars, ¬ Raised d o x sign t.1) : lostMass d o x sign σ = 1 := by
  rw [← sum_weight_followers hn covers, lostMass, Finset.sum_filter]
  refine Finset.sum_congr rfl fun p hp => ?_
  obtain ⟨inside, follows⟩ := Strategy.mem_followers.mp hp
  by_cases weight : d.weight p = 0
  · rw [weight, ite_self]
  · obtain ⟨t, ht, rfl⟩ := List.mem_map.mp
      ((covers.carried_iff hn enc.paths).mp carried p inside follows weight)
    rw [if_pos (lost t ht)]

theorem expectation_congr {τ : Strategy} (hn : d.Normalized) (covers : σ.Covers d)
    (covers' : τ.Covers d) (same : ∀ i ∈ d.decision, τ.local? i = σ.local? i) :
    τ.followers d = σ.followers d ∧ τ.expectation d = σ.expectation d := by
  have followers : τ.followers d = σ.followers d := by
    unfold Strategy.followers
    exact Finset.filter_congr fun p _ => Strategy.follows_congr same
  rw [covers.expectation_eq hn, covers'.expectation_eq hn, followers]
  exact ⟨rfl, rfl⟩

/-! ## The candidate that is kept -/

variable (e direction) in
theorem mem_choices_plan_iff (enc : Encoding d o isLazy z x m) (hn : d.Normalized)
    (picks : List ℕ) :
    picks ∈ (plan (m.withObjective direction e.expr)).space.choices ↔ Picks z.blocks picks := by
  rw [plan_eq enc hn]
  exact Encoding.mem_choices_iff

variable (direction) in
/-- What the search accepts at tolerance zero: feasible assignments that score their strategy,
and of the carried strategies those that lose no mass. -/
theorem exists_answers (enc : Encoding d o isLazy z x m) (hn : d.Normalized)
    (cut : o.probabilityCut = true ∨ isLazy = true) (free : ∀ e ∈ o.fixed.entries, e.1 ∉ d.chance)
    (small : z.vars.length < Word.count64) (built : ExpectedUtility.build d x = .ok e) :
    ∃ answer : List ℕ → Option (Scored Exact), ∀ picks, Picks z.blocks picks →
      (plan (m.withObjective direction e.expr)).attempt 0 picks = .ok (answer picks) ∧
      (∀ s, answer picks = some s → m.isFeasible s.values 0 = true ∧
        strategyOf z (reading s.values) = strategyOf z (bitsOf z.blocks picks) ∧
        s.score = finite (direction.sign * (x.scale.rational *
          ((strategyOf z (bitsOf z.blocks picks)).expectation d + d.shift.rational)))) ∧
      ((strategyOf z (bitsOf z.blocks picks)).Carried d x → ((answer picks).isSome = true ↔
        lostMass d o x direction.sign (strategyOf z (bitsOf z.blocks picks)) ≤ 0)) := by
  have pos := enc.paths.scale_eq.2
  have attempts (picks : List ℕ) : ∃ found, Picks z.blocks picks →
      (plan (m.withObjective direction e.expr)).attempt 0 picks = .ok found ∧
      (∀ s, found = some s → m.isFeasible s.values 0 = true ∧
        strategyOf z (reading s.values) = strategyOf z (bitsOf z.blocks picks) ∧
        s.score = finite (direction.sign * (x.scale.rational *
          ((strategyOf z (bitsOf z.blocks picks)).expectation d + d.shift.rational)))) ∧
      ((strategyOf z (bitsOf z.blocks picks)).Carried d x → (found.isSome = true ↔
        lostMass d o x direction.sign (strategyOf z (bitsOf z.blocks picks)) ≤ 0)) := by
    by_cases hp : Picks z.blocks picks
    swap
    · exact ⟨none, fun h => absurd h hp⟩
    obtain ⟨found, run, sound⟩ :=
      attempt_sound direction enc hn cut free small built hp
    refine ⟨found, fun _ => ⟨run, sound, fun carried => ?_⟩⟩
    obtain ⟨found', run', accepted⟩ :=
      attempt_carried direction enc hn cut free small built le_rfl hp carried
    obtain rfl := Except.ok.inj (run.symm.trans run')
    rw [accepted]
    exact ⟨fun low => nonpos_of_mul_nonpos_right low pos,
      fun low => mul_nonpos_of_nonneg_of_nonpos pos.le low⟩
  choose answer answers using attempts
  exact ⟨answer, answers⟩

/-- At tolerance zero the search keeps a feasible candidate that loses no mass, and that no other
such candidate beats. -/
theorem best_candidate (enc : Encoding d o isLazy z x m) (hn : d.Normalized)
    (cut : o.probabilityCut = true ∨ isLazy = true) (free : ∀ e ∈ o.fixed.entries, e.1 ∉ d.chance)
    (small : z.vars.length < Word.count64) (built : ExpectedUtility.build d x = .ok e)
    {top : Scored Exact} (best : (plan (m.withObjective direction e.expr)).best? 0
      (plan (m.withObjective direction e.expr)).space.choices = .ok (some top)) :
    ∃ picks, Picks z.blocks picks ∧ m.isFeasible top.values 0 = true ∧
      strategyOf z (reading top.values) = strategyOf z (bitsOf z.blocks picks) ∧
      lostMass d o x direction.sign (strategyOf z (bitsOf z.blocks picks)) ≤ 0 ∧
      ∀ others, Picks z.blocks others → (strategyOf z (bitsOf z.blocks others)).Carried d x →
        lostMass d o x direction.sign (strategyOf z (bitsOf z.blocks others)) ≤ 0 →
        direction.sign * (strategyOf z (bitsOf z.blocks others)).expectation d ≤
          direction.sign * (strategyOf z (bitsOf z.blocks picks)).expectation d := by
  rw [plan_eq enc hn] at best
  have pos := enc.paths.scale_eq.2
  obtain ⟨answer, answers⟩ := exists_answers direction enc hn cut free small built
  have picks_of {picks : List ℕ} (member : picks ∈ (Space.mk z.blocks []).choices) :
      Picks z.blocks picks := Encoding.mem_choices_iff.mp member
  rw [best?_eq_ok fun picks member => (answers picks (picks_of member)).1,
    Except.ok.injEq] at best
  have scored {s : Scored Exact} (hs : s ∈ (Space.mk z.blocks []).choices.filterMap answer) :
      ∃ picks, Picks z.blocks picks ∧ answer picks = some s := by
    obtain ⟨picks, member, hs⟩ := List.mem_filterMap.mp hs
    exact ⟨picks, picks_of member, hs⟩
  obtain ⟨member, greatest⟩ := best_spec (fun s hs => by
    obtain ⟨picks, hp, hs⟩ := scored hs
    rw [((answers picks hp).2.1 s hs).2.2]
    rfl) best
  obtain ⟨picks, hp, at_top⟩ := scored member
  obtain ⟨-, sound, accepted⟩ := answers picks hp
  obtain ⟨feasible, same, score⟩ := sound top at_top
  have carried := (enc.encoded_of_isFeasible hn cut free small (s := ⟨top.values, 0⟩) feasible).2
  rw [same] at carried
  refine ⟨picks, hp, feasible, same, (accepted carried).mp (by rw [at_top]; rfl),
    fun others hothers carried' low => ?_⟩
  obtain ⟨-, sound', accepted'⟩ := answers others hothers
  obtain ⟨s, hs⟩ := Option.isSome_iff_exists.mp ((accepted' carried').mpr low)
  have above := greatest s
    (List.mem_filterMap.mpr ⟨others, Encoding.mem_choices_iff.mpr hothers, hs⟩)
  rw [(sound' s hs).2.2, score, rational_finite, rational_finite, mul_left_comm,
    mul_left_comm direction.sign, mul_le_mul_iff_right₀ pos, mul_add, mul_add] at above
  linarith

/-- Every strategy is that of some candidate. -/
theorem exists_candidate (enc : Encoding d o isLazy z x m) (hn : d.Normalized)
    (small : z.vars.length < Word.count64) {τ : Strategy} (covers : τ.Covers d) :
    ∃ picks, Picks z.blocks picks ∧ (strategyOf z (bitsOf z.blocks picks)).Covers d ∧
      (strategyOf z (bitsOf z.blocks picks)).followers d = τ.followers d ∧
      (strategyOf z (bitsOf z.blocks picks)).expectation d = τ.expectation d ∧
      (τ.Carried d x → (strategyOf z (bitsOf z.blocks picks)).Carried d x) := by
  have picks := DecisionVariables.picks_picksOf covers enc.decisions hn.arranged hn.assembled
  have covers' := (DecisionVariables.isChoice_bitsOf enc.decisions picks).covers_strategyOf
    enc.decisions hn.arranged hn.assembled small
  have same : ∀ i ∈ d.decision,
      (strategyOf z (bitsOf z.blocks (picksOf z τ))).local? i = τ.local? i := fun i hi =>
    DecisionVariables.local?_strategyOf_bitsOf covers enc.decisions hn.arranged hn.assembled hi
  obtain ⟨followers, expectation⟩ := expectation_congr hn covers covers' same
  refine ⟨picksOf z τ, picks, covers', followers, expectation, fun carried => ?_⟩
  rw [covers.carried_iff hn enc.paths] at carried
  rw [covers'.carried_iff hn enc.paths]
  exact fun p hp follows => carried p hp ((Strategy.follows_congr same).mp follows)

/-! ## Opposed mass -/

/-- The mass of the compatible paths whose shifted utilities a direction opposes. -/
def opposedMass (d : Diagram Exact) (direction : Direction) (σ : Strategy) : ℚ :=
  ∑ p ∈ (σ.followers d).filter fun p => direction.sign * (d.utility p + d.shift.rational) < 0,
    d.weight p

/-- What is lost is what the direction opposes, unless the linking lower bound or the cut alone
holds the path variables up. -/
theorem lostMass_eq_opposedMass (direction : Direction) :
    lostMass d o x direction.sign σ =
      if (PathVariables.bindsBelow d o = false ∨ d.decision = []) ∧ x.vars.length ≠ 1 then
        opposedMass d direction σ
      else 0 := by
  have bound : (PathVariables.bindsBelow d o && !d.decision.isEmpty) = true ↔
      ¬ (PathVariables.bindsBelow d o = false ∨ d.decision = []) := by
    rw [Bool.and_eq_true, Bool.not_eq_true', List.isEmpty_eq_false_iff, not_or, Bool.not_eq_false]
  have raised (p : Path) : ¬ Raised d o x direction.sign p ↔
      ((PathVariables.bindsBelow d o = false ∨ d.decision = []) ∧ x.vars.length ≠ 1) ∧
        direction.sign * (d.utility p + d.shift.rational) < 0 := by
    rw [Raised, bound, ← not_le]
    tauto
  unfold lostMass opposedMass
  split
  case isTrue loose =>
    refine Finset.sum_congr (Finset.filter_congr fun p _ => ?_) fun _ _ => rfl
    rw [raised]
    exact and_iff_right loose
  case isFalse held =>
    refine Finset.sum_eq_zero fun p hp => absurd ?_ held
    exact ((raised p).mp (Finset.mem_filter.mp hp).2).1

/-- With the linking lower bound left to the sign of the utilities, it is missing where the
diagram claims a sign. -/
theorem lostMass_eq (auto : o.lowerBound = none) (direction : Direction) :
    lostMass d o x direction.sign σ =
      if (d.sign ≠ .unrestricted ∨ d.decision = []) ∧ x.vars.length ≠ 1 then
        opposedMass d direction σ
      else 0 := by
  have missing : PathVariables.bindsBelow d o = false ↔ d.sign ≠ .unrestricted := by
    rw [PathVariables.bindsBelow, auto, Option.getD_none, beq_eq_false_iff_ne]
  simp only [lostMass_eq_opposedMass, missing]

/-- The search keeps no candidate when each loses more than the tolerance. -/
theorem infeasible_iff_lost (enc : Encoding d o isLazy z x m) (hn : d.Normalized)
    (cut : o.probabilityCut = true ∨ isLazy = true) (free : ∀ e ∈ o.fixed.entries, e.1 ∉ d.chance)
    (small : z.vars.length < Word.count64) (built : ExpectedUtility.build d x = .ok e)
    {tolerance : ℚ} (nonneg : 0 ≤ tolerance) {limit : ℕ}
    (fits : (space (m.withObjective direction e.expr)).count ≤ limit)
    (carried : ∀ σ : Strategy, σ.Covers d → σ.Carried d x) :
    solve ⟨limit, finite tolerance⟩ (m.withObjective direction e.expr) = .error .infeasible ↔
      ∀ picks, Picks z.blocks picks → tolerance < x.scale.rational *
        lostMass d o x direction.sign (strategyOf z (bitsOf z.blocks picks)) := by
  have attempts (picks : List ℕ) : ∃ found, Picks z.blocks picks →
      (plan (m.withObjective direction e.expr)).attempt (finite tolerance) picks = .ok found ∧
      (found.isSome = true ↔ x.scale.rational *
        lostMass d o x direction.sign (strategyOf z (bitsOf z.blocks picks)) ≤ tolerance) := by
    by_cases hp : Picks z.blocks picks
    swap
    · exact ⟨none, fun h => absurd h hp⟩
    have covers := (DecisionVariables.isChoice_bitsOf enc.decisions hp).covers_strategyOf
      enc.decisions hn.arranged hn.assembled small
    obtain ⟨found, run⟩ := attempt_carried direction enc hn cut free small built
      nonneg hp (carried _ covers)
    exact ⟨found, fun _ => run⟩
  choose answer answers using attempts
  have members := mem_choices_plan_iff e direction enc hn
  rw [solve_eq_infeasible_iff fits (best?_eq_ok fun picks member =>
    (answers picks ((members picks).mp member)).1), foldl_better_eq_none, and_iff_right rfl,
    List.filterMap_eq_nil_iff]
  refine forall_congr' fun picks => ?_
  rw [members]
  refine forall_congr' fun hp => ?_
  rw [← not_le, ← (answers picks hp).2, Bool.not_eq_true, Option.isSome_eq_false_iff,
    Option.isNone_iff_eq_none]

end Attempts

/-! ## What the search answers -/

open DecisionVariables (strategyOf bitsOf) in
/-- Whenever the search answers on the program for the expected utility, it answers with a
strategy of the greatest expected utility, or the least when minimizing, of those that take no
forbidden path.  Variables are numbered by machine words. -/
theorem solve_optimal {f : DiagramFile Exact} {d : Diagram Exact} {o : PathVariableOptions Exact}
    {c : Compiled Exact} (run : f.compileWith d o = .ok c)
    (kind : f.model.objective.kind = .expectedValue) (hn : d.Normalized)
    (cut : o.probabilityCut = true ∨ f.model.lazyProbabilityCut = true)
    (unforced : o.fixed = .empty) (auto : o.lowerBound = none)
    (small : c.program.vars.size < Word.count64) {limit : ℕ} {s : Solution Exact}
    (found : solve ⟨limit, 0⟩ c.program = .ok s) :
    ∃ σ, c.decisions.strategy s = .ok σ ∧ σ.Covers d ∧ σ.Admitted d o ∧
      c.objective.value s = finite (σ.expectation d) ∧
      ∀ τ : Strategy, τ.Covers d → τ.Admitted d o →
        if f.model.objective.maximize then τ.expectation d ≤ σ.expectation d
        else σ.expectation d ≤ τ.expectation d := by
  obtain ⟨m, e, enc, built, objective, program⟩ := DiagramFile.compileWith_expected run kind
  set direction := Direction.ofFlag f.model.objective.maximize with hdirection
  have small : c.decisions.vars.length < Word.count64 := by
    rw [program, Program.withObjective, enc.size_eq] at small
    omega
  have free : ∀ e ∈ o.fixed.entries, e.1 ∉ d.chance := by
    rw [unforced]
    exact fun _ he => by cases he
  obtain ⟨top, best, rfl⟩ := solve_eq_ok found
  rw [program] at best
  obtain ⟨picks, hp, feasible, same, low, greatest⟩ :=
    best_candidate enc hn cut free small built best
  obtain ⟨encoded, carried⟩ := enc.encoded_of_isFeasible hn cut free small
    (s := ⟨top.values, c.program.objective.evaluate top.values⟩) feasible
  rw [same] at encoded carried
  set σ := strategyOf c.decisions (bitsOf c.decisions.blocks picks)
  have covers := encoded.covers
  refine ⟨σ, encoded.strategy, covers, (covers.carried_iff_admitted hn enc.paths).mp carried, ?_,
    fun τ τ_covers admitted => ?_⟩
  · rw [objective]
    exact encoded.value_eq carried hn enc.paths built
  obtain ⟨others, hothers, covers', -, expectation, carries⟩ :=
    exists_candidate enc hn small τ_covers
  have carried' := carries ((τ_covers.carried_iff_admitted hn enc.paths).mpr admitted)
  have order : direction.sign * τ.expectation d ≤ direction.sign * σ.expectation d := by
    by_cases decides : d.decision = []
    · -- Without decisions there is one strategy.
      have nothing : ∀ i ∈ d.decision, τ.local? i = σ.local? i := by
        rw [decides]
        exact fun i hi => by cases hi
      rw [(expectation_congr hn covers τ_covers nothing).2]
    · rcases all_raised_or_none enc hn built auto decides direction with raised | lost
      · rw [← expectation]
        exact greatest others hothers carried'
          (lostMass_eq_zero enc hn covers' carried' raised).le
      · rw [lostMass_eq_one enc hn covers carried lost] at low
        exact absurd low (by norm_num)
  rw [hdirection] at order
  cases hm : f.model.objective.maximize with
  | true =>
    rw [hm, Direction.ofFlag, if_pos rfl, Direction.sign, one_mul, one_mul] at order
    rwa [if_pos rfl]
  | false =>
    rw [hm, Direction.ofFlag, if_neg Bool.false_ne_true, Direction.sign] at order
    rw [if_neg Bool.false_ne_true]
    linarith

/-- The search takes the bet of the wager, which no strategy beats. -/
theorem solve_optimal_wager :
    ∃ c s σ, (wagerFile false .default).compileWith (wager false)
        ⟨true, [], .empty, true, 1, none⟩ = .ok c ∧
      solve ⟨2, 0⟩ c.program = .ok s ∧ c.decisions.strategy s = .ok σ ∧
      σ.expectation (wager false) = 1 ∧
      ∀ τ : Strategy, τ.Covers (wager false) →
        τ.Admitted (wager false) ⟨true, [], .empty, true, 1, none⟩ →
        τ.expectation (wager false) ≤ 1 := by
  obtain ⟨c, run, checks⟩ := exists_eq_ok_of_any
    (x := (wagerFile false .default).compileWith (wager false) ⟨true, [], .empty, true, 1, none⟩)
    (fun c => c.program.vars.size == 6 &&
      (solve ⟨2, 0⟩ c.program).toOption.any fun s => c.objective.value s == 1) (by decide +kernel)
  rw [Bool.and_eq_true, beq_iff_eq] at checks
  obtain ⟨size, answers⟩ := checks
  obtain ⟨s, found, value⟩ := exists_eq_ok_of_any _ answers
  obtain ⟨σ, read, -, -, expected, best⟩ := solve_optimal run rfl (normalized_wager false)
    (.inl rfl) rfl rfl (by rw [size]; decide) found
  rw [expected, one_eq_finite, finite_beq, decide_eq_true_eq] at value
  refine ⟨c, s, σ, run, found, read, value, fun τ covers admitted => ?_⟩
  rw [← value]
  exact best τ covers admitted

/-- Every strategy has a feasible assignment of the program for the expected utility.  The search
still finds the program infeasible where no linking lower bound holds the path variables up, as
the diagram claims a sign of its utilities or has no decisions, and every strategy puts too much
mass on paths that the direction opposes. -/
theorem solve_infeasible_iff {f : DiagramFile Exact} {d : Diagram Exact}
    {o : PathVariableOptions Exact} {c : Compiled Exact} (run : f.compileWith d o = .ok c)
    (kind : f.model.objective.kind = .expectedValue) (hn : d.Normalized)
    (cut : o.probabilityCut = true ∨ f.model.lazyProbabilityCut = true)
    (unforbidden : o.forbidden = []) (unforced : o.fixed = .empty) (auto : o.lowerBound = none)
    (small : c.program.vars.size < Word.count64) {limit : ℕ}
    (fits : (space c.program).count ≤ limit) {tolerance : ℚ} (nonneg : 0 ≤ tolerance) :
    (∀ σ : Strategy, σ.Covers d → ∃ values τ, c.program.isFeasible values 0 = true ∧
        c.decisions.strategy ⟨values, c.program.objective.evaluate values⟩ = .ok τ ∧
        ∀ i ∈ d.decision, τ.local? i = σ.local? i) ∧
      (solve ⟨limit, finite tolerance⟩ c.program = .error .infeasible ↔
        (d.sign ≠ .unrestricted ∨ d.decision = []) ∧ c.paths.vars.length ≠ 1 ∧
          ∀ σ : Strategy, σ.Covers d → tolerance < c.paths.scale.rational *
            opposedMass d (Direction.ofFlag f.model.objective.maximize) σ) := by
  obtain ⟨m, e, enc, built, objective, program⟩ := DiagramFile.compileWith_expected run kind
  set direction := Direction.ofFlag f.model.objective.maximize
  have small : c.decisions.vars.length < Word.count64 := by
    rw [program, Program.withObjective, enc.size_eq] at small
    omega
  have free : ∀ e ∈ o.fixed.entries, e.1 ∉ d.chance := by
    rw [unforced]
    exact fun _ he => by cases he
  have carried (σ : Strategy) (covers : σ.Covers d) : σ.Carried d c.paths := by
    rw [covers.carried_iff hn enc.paths]
    intro p hp _ weight
    rw [enc.paths.mem_paths_iff hn, unforbidden, unforced]
    exact ⟨hp, weight, fun _ hf => (by cases hf), fun i s hs => (by cases hs)⟩
  refine ⟨fun σ covers => ?_, ?_⟩
  · obtain ⟨feasible, same⟩ :=
      enc.isFeasible_assignmentOf hn cut free small covers (carried σ covers)
    refine ⟨_, _, ?_, (enc.encoded_of_isFeasible hn cut free small (s := ⟨_, _⟩) feasible).1.strategy,
      same⟩
    rw [program]
    exact feasible
  rw [program] at fits ⊢
  rw [infeasible_iff_lost enc hn cut free small built nonneg fits carried]
  simp only [lostMass_eq auto]
  have some_picks := enc.picks_zeros hn.arranged
  constructor
  · intro lost
    by_cases loose : (d.sign ≠ .unrestricted ∨ d.decision = []) ∧ c.paths.vars.length ≠ 1
    swap
    · have := lost _ some_picks
      rw [if_neg loose, mul_zero] at this
      exact absurd nonneg (not_le.mpr this)
    refine ⟨loose.1, loose.2, fun σ covers => ?_⟩
    obtain ⟨picks, hp, -, followers, -, -⟩ := exists_candidate enc hn small covers
    have := lost picks hp
    rwa [if_pos loose, opposedMass, followers] at this
  · rintro ⟨loose, several, opposed⟩ picks hp
    rw [if_pos ⟨loose, several⟩]
    exact opposed _ ((DecisionVariables.isChoice_bitsOf enc.decisions hp).covers_strategyOf
      enc.decisions hn.arranged hn.assembled small)

/-- Minimizing with utilities shifted to positive ones, the search finds the wager infeasible,
although each of its strategies has a feasible assignment. -/
theorem solve_infeasible_wager :
    ∃ c, (wagerFile true ⟨.expectedValue, false, none⟩).compileWith (wager true)
        ⟨true, [], .empty, true, 1, none⟩ = .ok c ∧
      solve ⟨2, finite 0⟩ c.program = .error .infeasible ∧
      c.program.isFeasible #[0, 1, 0, 0, 1, 1] 0 = true ∧
      ∀ σ : Strategy, σ.Covers (wager true) →
        (∃ values, c.program.isFeasible values 0 = true) ∧
          0 < c.paths.scale.rational * opposedMass (wager true) .minimize σ := by
  obtain ⟨c, run, checks⟩ := exists_eq_ok_of_any
    (x := (wagerFile true ⟨.expectedValue, false, none⟩).compileWith (wager true)
      ⟨true, [], .empty, true, 1, none⟩)
    (fun c => c.program.vars.size == 6 && (c.program.isFeasible #[0, 1, 0, 0, 1, 1] 0 &&
      (decide ((space c.program).count ≤ 2) && match solve ⟨2, finite 0⟩ c.program with
        | .error .infeasible => true
        | _ => false))) (by decide +kernel)
  rw [Bool.and_eq_true, Bool.and_eq_true, Bool.and_eq_true, beq_iff_eq, decide_eq_true_eq] at checks
  obtain ⟨size, feasible, fits, answer⟩ := checks
  have infeasible : solve ⟨2, finite 0⟩ c.program = .error .infeasible := by
    split at answer
    case h_1 _ found => exact found
    case h_2 => cases answer
  obtain ⟨every, exactly⟩ := solve_infeasible_iff run rfl (normalized_wager true) (.inl rfl) rfl
    rfl rfl (by rw [size]; decide) fits le_rfl
  obtain ⟨-, -, opposed⟩ := exactly.mp infeasible
  refine ⟨c, run, infeasible, feasible, fun σ covers => ⟨?_, opposed σ covers⟩⟩
  obtain ⟨values, -, found, -⟩ := every σ covers
  exact ⟨values, found⟩

end Influence
