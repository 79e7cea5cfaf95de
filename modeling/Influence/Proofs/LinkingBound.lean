import Influence.Proofs.Optimality

/-!
# The linking lower bound

Where the cut is on, the linking lower bound excludes no exact assignment: with and without it a
program has the same ones (`Encoding.isFeasible_congr`).  The search needs it all the same, as it
takes path variables that lower the score to their lower bound and sees the cut only afterwards.
Without the bound it so drops every strategy with an opposed path, and then answers as with the
bound exactly if some strategy of greatest expected utility has no such path
(`sameAnswer_lowerBound_iff`).
-/

namespace Influence

open Extended Program Search

open DecisionVariables (strategyOf bitsOf Picks)

variable {d : Diagram Exact} {o o' : PathVariableOptions Exact} {isLazy isLazy' : Bool}
  {z : DecisionVariables} {x x' : PathVariables Exact} {m m' : Program Exact}

/-! ## Programs over the same paths -/

/-- Programs of a diagram under options with the same names have the same decision variables. -/
theorem DiagramFile.decisions_eq {f : DiagramFile Exact} {c c' : Compiled Exact}
    (run : f.compileWith d o = .ok c) (run' : f.compileWith d o' = .ok c')
    (names : o'.names = o.names) : c'.decisions = c.decisions := by
  obtain ⟨m₁, -, -, decisions, -⟩ := compileWith_runs run
  obtain ⟨m₁', -, -, decisions', -⟩ := compileWith_runs run'
  rw [names] at decisions'
  exact (decisions.unique decisions').1

private theorem Encoding.isFeasible_transfer (enc : Encoding d o isLazy z x m)
    (enc' : Encoding d o' isLazy' z x' m') (hn : d.Normalized)
    (cut : o.probabilityCut = true ∨ isLazy = true)
    (cut' : o'.probabilityCut = true ∨ isLazy' = true)
    (free : ∀ e ∈ o.fixed.entries, e.1 ∉ d.chance) (fixed : o'.fixed = o.fixed)
    (small : z.vars.length < Word.count64) (vars : x'.vars = x.vars) {values : Array Exact}
    (feasible : m.isFeasible values 0 = true) : m'.isFeasible values 0 = true := by
  obtain ⟨size, assignment, satisfies⟩ := (enc.isFeasible_iff hn cut small).mp feasible
  have share {p : Path} (hp : inRange d.states p = true) :=
    satisfies.shareAt_eq enc hn free small assignment.bits assignment.shares hp
  refine (enc'.isFeasible_iff hn cut' small).mpr ⟨by rw [vars, size],
    ⟨by rw [vars]; exact assignment.isFinite, assignment.bits,
      by rw [vars]; exact assignment.shares⟩, ?_⟩
  refine satisfies_of_follows enc' hn (fixed ▸ free) small (satisfies.isChoice assignment.bits)
    (fun t ht => ?_) fun p hp follows weight => ?_
  · rw [vars] at ht
    obtain ⟨taken, left⟩ := share (enc.paths.inRange ht)
    rw [enc.paths.shareAt_eq ht] at taken left
    split
    case isTrue follows => exact taken follows (enc.paths.weight_pos hn ht).ne'
    case isFalse out => exact left out
  · -- A follower without a variable would have no share.
    rw [vars]
    by_contra missing
    have one := (share hp).1 follows weight
    rw [shareAt_of_notMem missing] at one
    exact zero_ne_one one

/-- Programs with cuts over the same paths have the same exact assignments. -/
theorem Encoding.isFeasible_congr (enc : Encoding d o isLazy z x m)
    (enc' : Encoding d o' isLazy' z x' m') (hn : d.Normalized)
    (cut : o.probabilityCut = true ∨ isLazy = true)
    (cut' : o'.probabilityCut = true ∨ isLazy' = true)
    (free : ∀ e ∈ o.fixed.entries, e.1 ∉ d.chance) (fixed : o'.fixed = o.fixed)
    (small : z.vars.length < Word.count64) (vars : x'.vars = x.vars) (values : Array Exact) :
    m.isFeasible values 0 = m'.isFeasible values 0 := by
  rw [Bool.eq_iff_iff]
  exact ⟨enc.isFeasible_transfer enc' hn cut cut' free fixed small vars,
    enc'.isFeasible_transfer enc hn cut' cut (fixed ▸ free) fixed.symm small vars.symm⟩

/-! ## What the search keeps -/

/-- The search accepts the candidate of the strategy at tolerance zero. -/
structure Strategy.Kept (d : Diagram Exact) (o : PathVariableOptions Exact)
    (x : PathVariables Exact) (direction : Direction) (σ : Strategy) : Prop where
  covers : σ.Covers d
  carried : σ.Carried d x
  whole : lostMass d o x direction.sign σ ≤ 0

section Kept

variable {e : ExpectedUtility Exact} {direction : Direction} {σ : Strategy}

/-- A kept strategy is that of some candidate. -/
theorem Strategy.Kept.exists_candidate (kept : σ.Kept d o x direction)
    (enc : Encoding d o isLazy z x m) (hn : d.Normalized) (small : z.vars.length < Word.count64) :
    ∃ picks, Picks z.blocks picks ∧ (strategyOf z (bitsOf z.blocks picks)).Carried d x ∧
      lostMass d o x direction.sign (strategyOf z (bitsOf z.blocks picks)) ≤ 0 ∧
      (strategyOf z (bitsOf z.blocks picks)).expectation d = σ.expectation d := by
  obtain ⟨picks, hp, -, followers, expectation, carries⟩ :=
    Influence.exists_candidate enc hn small kept.covers
  refine ⟨picks, hp, carries kept.carried, ?_, expectation⟩
  rw [lostMass, followers]
  exact kept.whole

/-- A search within its limit finds a program infeasible if it keeps no strategy, and otherwise
answers with a kept strategy that no other beats. -/
theorem solve_cases (enc : Encoding d o isLazy z x m) (hn : d.Normalized)
    (cut : o.probabilityCut = true ∨ isLazy = true) (free : ∀ e ∈ o.fixed.entries, e.1 ∉ d.chance)
    (small : z.vars.length < Word.count64) (built : ExpectedUtility.build d x = .ok e) {limit : ℕ}
    (fits : (space (m.withObjective direction e.expr)).count ≤ limit) :
    (solve ⟨limit, 0⟩ (m.withObjective direction e.expr) = .error .infeasible ∧
        ∀ σ : Strategy, ¬ σ.Kept d o x direction) ∨
      ∃ (s : Solution Exact) (σ : Strategy),
        solve ⟨limit, 0⟩ (m.withObjective direction e.expr) = .ok s ∧
        e.value s = finite (σ.expectation d) ∧ σ.Kept d o x direction ∧
        ∀ τ : Strategy, τ.Kept d o x direction →
          direction.sign * τ.expectation d ≤ direction.sign * σ.expectation d := by
  obtain ⟨answer, answers⟩ := exists_answers direction enc hn cut free small built
  have run : (plan (m.withObjective direction e.expr)).best? 0
      (space (m.withObjective direction e.expr)).choices =
      .ok (((space (m.withObjective direction e.expr)).choices.filterMap answer).foldl
        (better 0) none) :=
    best?_eq_ok fun picks member =>
      (answers picks ((mem_choices_plan_iff e direction enc hn picks).mp member)).1
  rw [solve_eq_match fits]
  cases best : ((space (m.withObjective direction e.expr)).choices.filterMap answer).foldl
    (better 0) none with
  | none =>
    rw [best] at run
    refine .inl ⟨by rw [run], fun σ kept => ?_⟩
    obtain ⟨picks, hp, carried, whole, -⟩ := kept.exists_candidate enc hn small
    have accepted := ((answers picks hp).2.2 carried).mpr whole
    have missed := List.filterMap_eq_nil_iff.mp (foldl_better_eq_none.mp best).2 picks
      ((mem_choices_plan_iff e direction enc hn picks).mpr hp)
    rw [missed] at accepted
    cases accepted
  | some top =>
    rw [best] at run
    obtain ⟨picks, hp, feasible, same, whole, greatest⟩ :=
      best_candidate enc hn cut free small built run
    obtain ⟨encoded, carried⟩ := enc.encoded_of_isFeasible hn cut free small
      (s := ⟨top.values, (m.withObjective direction e.expr).objective.evaluate top.values⟩) feasible
    rw [same] at encoded carried
    refine .inr ⟨_, _, by rw [run], encoded.value_eq carried hn enc.paths built,
      ⟨encoded.covers, carried, whole⟩, fun τ kept => ?_⟩
    obtain ⟨others, hothers, carried', whole', expectation⟩ := kept.exists_candidate enc hn small
    rw [← expectation]
    exact greatest others hothers carried' whole'

end Kept

/-! ## With and without the bound -/

/-- Two searches at tolerance zero find their programs infeasible, or answer with the same value
of the objectives. -/
def SameAnswer (limit : ℕ) (c c' : Compiled Exact) : Prop :=
  (solve ⟨limit, 0⟩ c.program = .error .infeasible ∧
      solve ⟨limit, 0⟩ c'.program = .error .infeasible) ∨
    ∃ s s', solve ⟨limit, 0⟩ c.program = .ok s ∧ solve ⟨limit, 0⟩ c'.program = .ok s' ∧
      c.objective.value s = c'.objective.value s'

theorem opposedMass_nonneg (hn : d.Normalized) (direction : Direction) (σ : Strategy) :
    0 ≤ opposedMass d direction σ :=
  Finset.sum_nonneg fun _ hp =>
    hn.weighed.weight_nonneg (Strategy.mem_followers.mp (Finset.mem_filter.mp hp).1).1

theorem Direction.sign_ne_zero (direction : Direction) : direction.sign ≠ 0 := by
  cases direction <;> norm_num [Direction.sign]

/-- The search keeps the strategies that take no forbidden path, and of them, where nothing holds
path variables up, those without opposed mass. -/
theorem Strategy.kept_iff (enc : Encoding d o isLazy z x m) (hn : d.Normalized)
    {direction : Direction} {σ : Strategy} :
    σ.Kept d o x direction ↔ σ.Covers d ∧ σ.Admitted d o ∧
      ((PathVariables.bindsBelow d o = false ∨ d.decision = []) ∧ x.vars.length ≠ 1 →
        opposedMass d direction σ = 0) := by
  have whole : lostMass d o x direction.sign σ ≤ 0 ↔
      ((PathVariables.bindsBelow d o = false ∨ d.decision = []) ∧ x.vars.length ≠ 1 →
        opposedMass d direction σ = 0) := by
    rw [lostMass_eq_opposedMass]
    split
    case isTrue loose =>
      rw [imp_iff_right loose]
      exact ⟨fun low => le_antisymm low (opposedMass_nonneg hn direction σ), fun zero => zero.le⟩
    case isFalse held => exact iff_of_true le_rfl fun loose => absurd loose held
  rw [← whole]
  constructor
  · rintro ⟨covers, carried, low⟩
    exact ⟨covers, (covers.carried_iff_admitted hn enc.paths).mp carried, low⟩
  · rintro ⟨covers, admitted, low⟩
    exact ⟨covers, (covers.carried_iff_admitted hn enc.paths).mpr admitted, low⟩

/-- Without the linking lower bound the search keeps no strategy with opposed mass, unless there is
one path variable. -/
theorem Strategy.kept_unbound_iff
    (enc : Encoding d { o with lowerBound := some false } isLazy z x m) (hn : d.Normalized)
    (direction : Direction) (σ : Strategy) :
    σ.Kept d { o with lowerBound := some false } x direction ↔ σ.Covers d ∧ σ.Admitted d o ∧
      (x.vars.length ≠ 1 → opposedMass d direction σ = 0) := by
  have loose : PathVariables.bindsBelow d { o with lowerBound := some false } = false ∨
      d.decision = [] := .inl rfl
  rw [kept_iff enc hn, and_iff_right loose]
  rfl

/-- With the bound it keeps them where there are decisions. -/
theorem Strategy.kept_bound_iff
    (enc : Encoding d { o with lowerBound := some true } isLazy z x m) (hn : d.Normalized)
    (direction : Direction) (σ : Strategy) :
    σ.Kept d { o with lowerBound := some true } x direction ↔ σ.Covers d ∧ σ.Admitted d o ∧
      (d.decision = [] → x.vars.length ≠ 1 → opposedMass d direction σ = 0) := by
  have bound : ¬ PathVariables.bindsBelow d { o with lowerBound := some true } = false :=
    Bool.false_ne_true.symm
  rw [kept_iff enc hn, or_iff_right bound, and_imp]
  rfl

/-- If one search keeps less than another, they answer alike exactly if it keeps a match for
everything that the other keeps. -/
private theorem sameAnswer_iff {limit : ℕ} {c c' : Compiled Exact} (direction : Direction)
    {K K' : Strategy → Prop} (fewer : ∀ σ, K σ → K' σ)
    (answer : (solve ⟨limit, 0⟩ c.program = .error .infeasible ∧ ∀ σ, ¬ K σ) ∨
      ∃ s σ, solve ⟨limit, 0⟩ c.program = .ok s ∧ c.objective.value s = finite (σ.expectation d) ∧
        K σ ∧ ∀ τ : Strategy, K τ →
          direction.sign * τ.expectation d ≤ direction.sign * σ.expectation d)
    (answer' : (solve ⟨limit, 0⟩ c'.program = .error .infeasible ∧ ∀ σ, ¬ K' σ) ∨
      ∃ s σ, solve ⟨limit, 0⟩ c'.program = .ok s ∧
        c'.objective.value s = finite (σ.expectation d) ∧ K' σ ∧ ∀ τ : Strategy, K' τ →
          direction.sign * τ.expectation d ≤ direction.sign * σ.expectation d) :
    SameAnswer limit c c' ↔ ∀ σ, K' σ → ∃ τ : Strategy, K τ ∧
      direction.sign * σ.expectation d ≤ direction.sign * τ.expectation d := by
  constructor
  · rintro (⟨-, infeasible⟩ | ⟨s, s', found, found', same⟩) σ kept
    · obtain ⟨-, nothing⟩ | ⟨s, -, found, -⟩ := answer'
      · exact absurd kept (nothing σ)
      · cases infeasible.symm.trans found
    · obtain ⟨infeasible, -⟩ | ⟨t, τ, run, value, own, -⟩ := answer
      · cases infeasible.symm.trans found
      obtain ⟨infeasible, -⟩ | ⟨t', τ', run', value', -, greatest⟩ := answer'
      · cases infeasible.symm.trans found'
      obtain rfl := Except.ok.inj (run.symm.trans found)
      obtain rfl := Except.ok.inj (run'.symm.trans found')
      rw [value, value', Extended.finite.injEq] at same
      exact ⟨τ, own, same ▸ greatest σ kept⟩
  · intro matched
    obtain ⟨infeasible', nothing'⟩ | ⟨s', σ', found', value', kept', greatest'⟩ := answer'
    · obtain ⟨infeasible, -⟩ | ⟨-, σ, -, -, kept, -⟩ := answer
      · exact .inl ⟨infeasible, infeasible'⟩
      · exact absurd (fewer σ kept) (nothing' σ)
    · obtain ⟨τ, own, above⟩ := matched σ' kept'
      obtain ⟨-, nothing⟩ | ⟨s, σ, found, value, kept, greatest⟩ := answer
      · exact absurd own (nothing τ)
      refine .inr ⟨s, s', found, found', ?_⟩
      have equal := le_antisymm (greatest' σ (fewer σ kept)) (above.trans (greatest τ own))
      rw [value, value', mul_left_cancel₀ direction.sign_ne_zero equal]

/-- The linking lower bound does not change what is feasible where the cut is on.  The search at
tolerance zero answers alike with and without it exactly if there are no decisions, or one path
variable, or every strategy that takes no forbidden path is matched by one without opposed mass.
Variables are numbered by machine words. -/
theorem sameAnswer_lowerBound_iff {f : DiagramFile Exact} {o : PathVariableOptions Exact}
    {c c' : Compiled Exact} (run : f.compileWith d { o with lowerBound := some false } = .ok c)
    (run' : f.compileWith d { o with lowerBound := some true } = .ok c')
    (kind : f.model.objective.kind = .expectedValue) (hn : d.Normalized)
    (cut : o.probabilityCut = true ∨ f.model.lazyProbabilityCut = true)
    (unforced : o.fixed = .empty) (small : c.program.vars.size < Word.count64) {limit : ℕ}
    (fits : (space c.program).count ≤ limit) :
    (∀ values, c.program.isFeasible values 0 = c'.program.isFeasible values 0) ∧
      (SameAnswer limit c c' ↔ d.decision = [] ∨ c.paths.vars.length = 1 ∨
        ∀ σ : Strategy, σ.Covers d → σ.Admitted d o →
          ∃ τ : Strategy, τ.Covers d ∧ τ.Admitted d o ∧
            opposedMass d (Direction.ofFlag f.model.objective.maximize) τ = 0 ∧
            (Direction.ofFlag f.model.objective.maximize).sign * σ.expectation d ≤
              (Direction.ofFlag f.model.objective.maximize).sign * τ.expectation d) := by
  have decisions : c'.decisions = c.decisions := DiagramFile.decisions_eq run run' rfl
  obtain ⟨m, e, enc, built, objective, program⟩ := DiagramFile.compileWith_expected run kind
  obtain ⟨m', e', enc', built', objective', program'⟩ := DiagramFile.compileWith_expected run' kind
  set direction := Direction.ofFlag f.model.objective.maximize
  rw [decisions] at enc'
  have vars : c'.paths.vars = c.paths.vars := enc.paths.vars_eq enc'.paths rfl rfl
  have free : ∀ e ∈ o.fixed.entries, e.1 ∉ d.chance := by
    rw [unforced]
    exact fun _ he => by cases he
  have small : c.decisions.vars.length < Word.count64 := by
    rw [program, Program.withObjective, enc.size_eq] at small
    omega
  refine ⟨fun values => ?_, ?_⟩
  · rw [program, program']
    exact enc.isFeasible_congr enc' hn cut cut free rfl small vars values
  have fits' : (space c'.program).count ≤ limit := by
    have same : space m' = space m := by rw [enc.space_eq hn.arranged, enc'.space_eq hn.arranged]
    rw [program] at fits
    rw [program']
    exact (congrArg Space.count same).trans_le fits
  have kept := Strategy.kept_unbound_iff enc hn direction
  have kept' := Strategy.kept_bound_iff enc' hn direction
  rw [vars] at kept'
  have fewer (σ : Strategy) (hσ : σ.Kept d { o with lowerBound := some false } c.paths direction) :
      σ.Kept d { o with lowerBound := some true } c'.paths direction := by
    obtain ⟨covers, admitted, whole⟩ := (kept σ).mp hσ
    exact (kept' σ).mpr ⟨covers, admitted, fun _ => whole⟩
  rw [sameAnswer_iff (d := d) direction fewer]
  rotate_left
  · rw [program, objective]
    exact solve_cases enc hn cut free small built (program ▸ fits)
  · rw [program', objective']
    exact solve_cases enc' hn cut free small built' (program' ▸ fits')
  simp only [kept, kept']
  by_cases held : d.decision = [] ∨ c.paths.vars.length = 1
  · -- Both searches keep the same strategies.
    refine iff_of_true ?_ (held.imp_right .inl)
    rintro σ ⟨covers, admitted, whole⟩
    exact ⟨σ, ⟨covers, admitted, fun several => whole (held.resolve_right several) several⟩, le_rfl⟩
  · obtain ⟨decides, several⟩ := not_or.mp held
    simp only [decides, several, false_or, IsEmpty.forall_iff, and_true, ne_eq, not_false_eq_true,
      forall_true_left, and_assoc, and_imp]

/-- Without the linking lower bound the search answers zero in the wager: the bet, which gains one
on average, has a path with a loss. -/
theorem sameAnswer_lowerBound_wager :
    ∃ c c', (wagerFile false .default).compileWith (wager false)
        ⟨true, [], .empty, true, 1, some false⟩ = .ok c ∧
      (wagerFile false .default).compileWith (wager false)
        ⟨true, [], .empty, true, 1, some true⟩ = .ok c' ∧
      c'.program.isFeasible #[0, 1, 0, 0, 1, 1] 0 = true ∧
      c.program.isFeasible #[0, 1, 0, 0, 1, 1] 0 = true ∧ ¬ SameAnswer 2 c c' ∧
      ∃ σ : Strategy, σ.Covers (wager false) ∧ ∀ τ : Strategy, τ.Covers (wager false) →
        τ.Admitted (wager false) ⟨true, [], .empty, true, 1, none⟩ →
        opposedMass (wager false) .maximize τ = 0 →
        τ.expectation (wager false) < σ.expectation (wager false) := by
  obtain ⟨c, run, checks⟩ := exists_eq_ok_of_any
    (x := (wagerFile false .default).compileWith (wager false)
      ⟨true, [], .empty, true, 1, some false⟩)
    (fun c => c.program.vars.size == 6 && (decide ((space c.program).count ≤ 2) &&
      (solve ⟨2, 0⟩ c.program).toOption.any fun s => decide (c.objective.value s = finite 0)))
    (by decide +kernel)
  obtain ⟨c', run', checks'⟩ := exists_eq_ok_of_any
    (x := (wagerFile false .default).compileWith (wager false)
      ⟨true, [], .empty, true, 1, some true⟩)
    (fun c => c.program.isFeasible #[0, 1, 0, 0, 1, 1] 0 &&
      (solve ⟨2, 0⟩ c.program).toOption.any fun s => decide (c.objective.value s = finite 1))
    (by decide +kernel)
  rw [Bool.and_eq_true, Bool.and_eq_true, beq_iff_eq, decide_eq_true_eq] at checks
  obtain ⟨size, fits, answers⟩ := checks
  obtain ⟨s, found, value⟩ := exists_eq_ok_of_any _ answers
  rw [Bool.and_eq_true] at checks'
  obtain ⟨feasible, answers'⟩ := checks'
  obtain ⟨s', found', value'⟩ := exists_eq_ok_of_any _ answers'
  rw [decide_eq_true_eq] at value value'
  obtain ⟨same, exactly⟩ := sameAnswer_lowerBound_iff (o := ⟨true, [], .empty, true, 1, none⟩)
    run run' rfl (normalized_wager false) (.inl rfl) rfl (by rw [size]; decide) fits
  have differ : ¬ SameAnswer 2 c c' := by
    rintro (⟨infeasible, -⟩ | ⟨t, t', run, run', equal⟩)
    · cases infeasible.symm.trans found
    · obtain rfl := Except.ok.inj (run.symm.trans found)
      obtain rfl := Except.ok.inj (run'.symm.trans found')
      rw [value, value', Extended.finite.injEq] at equal
      exact zero_ne_one equal
  refine ⟨c, c', run, run', feasible, (same _).trans feasible, differ, ?_⟩
  rw [exactly] at differ
  push Not at differ
  obtain ⟨-, -, σ, covers, -, above⟩ := differ
  refine ⟨σ, covers, fun τ covers' admitted whole => ?_⟩
  have less := above τ covers' admitted whole
  rwa [show (Direction.ofFlag (wagerFile false .default).model.objective.maximize).sign = 1 from rfl,
    one_mul, one_mul] at less

end Influence
