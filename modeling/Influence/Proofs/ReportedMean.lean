import Influence.Proofs.Analysis
import Influence.Proofs.Optimality

/-!
# The value of the objective and the mean that is reported

A report gives the value of the objective, which is read off the path variables, and the mean of
the utilities, for which the strategy is followed through the diagram once more.  The mean counts
every path that follows the strategy.  The objective counts those that have a path variable, if the
search raises it (`Counted`).

Where the cut is an equation, it makes the two the same set of paths up to probability zero.  It is
an upper bound only where a chance node is forced, and it may be switched off; the search then
raises the variables that are bound from below or that the direction does not oppose
(`solve_held`), and value and mean differ by the utility of the paths left out
(`objective_eq_mean_iff`).
-/

namespace Influence

open Extended Program Search

open DecisionVariables (strategyOf bitsOf Picks)

/-! ## What the search answers with where the cut is no equation -/

section Held

variable {d : Diagram Exact} {o : PathVariableOptions Exact} {isLazy : Bool}
  {z : DecisionVariables} {x : PathVariables Exact} {m : Program Exact}
  {e : ExpectedUtility Exact} {direction : Direction}

/-- Where the cut is no equation, the search answers with the bits of some candidate, and raises the
variables of the paths that follow and are held. -/
theorem solve_held (enc : Encoding d o isLazy z x m) (hn : d.Normalized)
    (loose : o.probabilityCut = true ∨ isLazy = true → x.cutSense = .le)
    (small : z.vars.length < Word.count64) (built : ExpectedUtility.build d x = .ok e) {limit : ℕ}
    {s : Solution Exact} (found : solve ⟨limit, 0⟩ (m.withObjective direction e.expr) = .ok s) :
    ∃ picks, Picks z.blocks picks ∧ ∀ v < m.vars.size, s.values.getD v 0 =
      finite (combine z x (bitsOf z.blocks picks)
        (heldShare d o direction.sign (strategyOf z (bitsOf z.blocks picks))) v) := by
  rcases solve_eq_ok found with ⟨top, best, rfl⟩
  rcases exists_attempt_of_best? best with ⟨picks, member, run⟩
  have hp := (mem_choices_plan_iff e direction enc hn picks).mp member
  have choice := DecisionVariables.isChoice_bitsOf enc.decisions hp
  rcases attempt_of_picked (P := Leeway d o z (bitsOf z.blocks picks)) enc hn built le_rfl hp
    (fun t ht values size bits =>
      interval_leeway enc hn loose small (size.trans enc.size_eq) bits ht)
    (fun t ht => picked_heldShare enc hn small choice ht direction.sign) with
    ⟨values, -, completed, run'⟩
  have same := Except.ok.inj (run.symm.trans run')
  split at same
  case isTrue =>
    obtain rfl := Option.some.inj same
    exact ⟨picks, hp, completed⟩
  case isFalse => cases same

/-- The objective counts the path: it has a variable, and this is held. -/
def Counted (d : Diagram Exact) (o : PathVariableOptions Exact) (x : PathVariables Exact)
    (direction : Direction) (p : Path) : Prop :=
  (x.get? p).isSome = true ∧ Held d o direction.sign p

instance : DecidablePred (Counted d o x direction) :=
  fun p => inferInstanceAs (Decidable ((x.get? p).isSome = true ∧ Held d o direction.sign p))

/-- What the objective leaves out of the expected utility of a strategy. -/
def leftOut (d : Diagram Exact) (o : PathVariableOptions Exact) (x : PathVariables Exact)
    (direction : Direction) (σ : Strategy) : ℚ :=
  ∑ p ∈ (σ.followers d).filter (¬ Counted d o x direction ·), d.weight p * d.utility p

/-- Where the cut is no equation, the value of an answer is the expected utility of its strategy
less what is left out. -/
theorem value_eq_of_held (enc : Encoding d o isLazy z x m) (hn : d.Normalized)
    (loose : o.probabilityCut = true ∨ isLazy = true → x.cutSense = .le)
    (small : z.vars.length < Word.count64) (built : ExpectedUtility.build d x = .ok e) {limit : ℕ}
    {s : Solution Exact} (found : solve ⟨limit, 0⟩ (m.withObjective direction e.expr) = .ok s) :
    ∃ σ, z.strategy s = .ok σ ∧ σ.Covers d ∧
      e.value s = finite (σ.expectation d - leftOut d o x direction σ) := by
  rcases solve_held enc hn loose small built found with ⟨picks, hp, completed⟩
  set σ := strategyOf z (bitsOf z.blocks picks)
  have choice := DecisionVariables.isChoice_bitsOf enc.decisions hp
  have covers := choice.covers_strategyOf enc.decisions hn.arranged hn.assembled small
  rw [enc.size_eq] at completed
  have read : z.strategy s = .ok σ := by
    refine DecisionVariables.strategy_eq_ok choice enc.decisions hn.arranged small fun v hv => ?_
    have value := completed v ((enc.mem_vars_lt hv).trans_le (Nat.le_add_right _ _))
    rwa [enc.combine_bit hv] at value
  refine ⟨σ, read, covers, ?_⟩
  rw [ExpectedUtility.value_eq enc.paths hn built fun t ht => completed t.2 (enc.paths.var_mem ht).2,
    finite.injEq, covers.expectation_eq hn, eq_sub_iff_add_eq, leftOut,
    ← Finset.sum_filter_add_sum_filter_not (σ.followers d) (Counted d o x direction),
    add_left_inj, Strategy.followers, Finset.filter_filter, Finset.sum_filter]
  refine Finset.sum_congr rfl fun p _ => ?_
  by_cases mem : p ∈ x.vars.map (·.1)
  · have counted : Counted d o x direction p ↔ Held d o direction.sign p :=
      and_iff_right (enc.paths.isSome_get?_iff.mpr mem)
    obtain ⟨t, ht, rfl⟩ := List.mem_map.mp mem
    rw [enc.paths.shareAt_eq ht, enc.combine_share ht, heldShare, mul_ite, mul_one, mul_zero,
      if_congr (and_congr_right fun _ => counted) rfl rfl]
  · have missed : ¬ Counted d o x direction p := fun counted =>
      mem (enc.paths.isSome_get?_iff.mp counted.1)
    rw [shareAt_of_notMem mem, mul_zero, if_neg fun both => missed both.2]

/-- Nothing is left out of a strategy that the program admits if its paths are held up: by the
linking lower bound, or because the direction opposes none of them. -/
theorem leftOut_eq_zero {σ : Strategy} (enc : Encoding d o isLazy z x m) (hn : d.Normalized)
    (covers : σ.Covers d) (admitted : σ.Admitted d o)
    (held : PathVariables.bindsBelow d o = true ∧ d.decision ≠ [] ∨
      opposedMass d direction σ = 0) : leftOut d o x direction σ = 0 := by
  have carried := (covers.carried_iff_admitted hn enc.paths).mpr admitted
  rw [covers.carried_iff hn enc.paths] at carried
  refine Finset.sum_eq_zero fun p hp => ?_
  rcases Finset.mem_filter.mp hp with ⟨follower, missed⟩
  rcases Strategy.mem_followers.mp follower with ⟨inside, follows⟩
  suffices weight : d.weight p = 0 by rw [weight, zero_mul]
  by_contra weight
  have found := enc.paths.isSome_get?_iff.mpr (carried p inside follows weight)
  have loose : ¬ Held d o direction.sign p := fun held => missed ⟨found, held⟩
  simp only [Held, Bool.and_eq_true, Bool.not_eq_true', List.isEmpty_eq_false_iff, not_or,
    not_le] at loose
  rcases held with bound | none
  · exact loose.1 bound
  · -- The path is opposed, and no opposed path that follows has a weight.
    refine weight ((Finset.sum_eq_zero_iff_of_nonneg fun q hq => ?_).mp none p
      (Finset.mem_filter.mpr ⟨follower, loose.2⟩))
    exact hn.weighed.weight_nonneg (Strategy.mem_followers.mp (Finset.mem_filter.mp hq).1).1

end Held

/-! ## The mean that is reported -/

section Report

variable [Root ℚ] {d : Diagram Exact} {c : Compiled Exact} {s : Solution Exact}
  {settings : AnalysisSettings Exact} {info : RunInfo} {report : SolveReport Exact}

theorem UtilityReport.mean_of_ofDistribution {x : Distribution Exact} {levels : List Exact}
    {r : UtilityReport Exact} (run : UtilityReport.ofDistribution x levels = .ok r)
    {m : Moments Exact} (moments : x.moments = .ok m) : r.statistics.mean = m.mean := by
  rcases except_bind_eq_ok.mp run with ⟨statistics, computed, run⟩
  rcases except_bind_eq_ok.mp run with ⟨risk, -, run⟩
  obtain rfl := except_pure_eq_ok.mp run
  rcases except_bind_eq_ok.mp computed with ⟨m', moments', computed⟩
  obtain rfl := Except.ok.inj (moments.symm.trans moments')
  split at computed
  case h_1 => exact (except_pure_eq_ok.mp computed) ▸ rfl
  case h_2 => cases computed

/-- Without rounding, a report gives the value of the objective and the expected utility of the
strategy that is read back. -/
theorem Compiled.analyze_eq_ok (hn : d.Normalized) (exact : settings.precision = none)
    (run : c.analyze d s settings info = .ok report) {σ : Strategy}
    (read : c.decisions.strategy s = .ok σ) (covers : σ.Covers d) :
    report.objective.value = c.objective.value s ∧
      report.utility.statistics.mean = finite (σ.expectation d) := by
  rcases analyze_runs run with ⟨τ, -, x, utility, read', -, distributed, reported, rfl⟩
  obtain rfl := Except.ok.inj (read.symm.trans read')
  rw [AnalysisSettings.rounded, exact] at reported
  rcases Distribution.mean_ofStrategy covers hn
    (Distribution.valued_of_ofStrategy covers hn distributed) with ⟨y, m, again, moments, mean⟩
  obtain rfl := Except.ok.inj (distributed.symm.trans again)
  exact ⟨rfl, (UtilityReport.mean_of_ofDistribution reported moments).trans mean⟩

/-- The value of the objective that a report gives is the mean that it gives exactly if the cut is an
equation, which it is where it is asked for and no chance node is forced, or the paths that the
objective leaves out have no utility in sum.  This is so if the strategy takes no forbidden path and
leaves no forced state, and the linking lower bound is in force or the direction opposes no
path.  Variables are numbered by machine words. -/
theorem objective_eq_mean_iff {f : DiagramFile Exact} {o : PathVariableOptions Exact}
    (run : f.compileWith d o = .ok c) (kind : f.model.objective.kind = .expectedValue)
    (hn : d.Normalized) (small : c.program.vars.size < Word.count64) {limit : ℕ}
    (found : solve ⟨limit, 0⟩ c.program = .ok s) (exact : settings.precision = none)
    (analyzed : c.analyze d s settings info = .ok report) :
    ∃ σ, c.decisions.strategy s = .ok σ ∧ σ.Covers d ∧
      (report.objective.value = report.utility.statistics.mean ↔
        ((o.probabilityCut = true ∨ f.model.lazyProbabilityCut = true) ∧
            ∀ e ∈ o.fixed.entries, e.1 ∉ d.chance) ∨
          leftOut d o c.paths (Direction.ofFlag f.model.objective.maximize) σ = 0) ∧
      (σ.Admitted d o → (PathVariables.bindsBelow d o = true ∧ d.decision ≠ [] ∨
          opposedMass d (Direction.ofFlag f.model.objective.maximize) σ = 0) →
        report.objective.value = report.utility.statistics.mean) := by
  rcases DiagramFile.compileWith_expected run kind with ⟨m, e, enc, built, objective, program⟩
  set direction := Direction.ofFlag f.model.objective.maximize
  have small : c.decisions.vars.length < Word.count64 := by
    rw [program, Program.withObjective, enc.size_eq] at small
    omega
  rw [program] at found
  by_cases equation : (o.probabilityCut = true ∨ f.model.lazyProbabilityCut = true) ∧
      ∀ e ∈ o.fixed.entries, e.1 ∉ d.chance
  · rcases equation with ⟨cut, free⟩
    rcases solve_eq_ok found with ⟨top, best, answer⟩
    rcases best_candidate enc hn cut free small built best with ⟨-, -, feasible, -⟩
    rcases enc.encoded_of_isFeasible hn cut free small (s := s) (answer ▸ feasible) with
      ⟨encoded, carried⟩
    rcases c.analyze_eq_ok hn exact analyzed encoded.strategy encoded.covers with ⟨value, mean⟩
    have same : report.objective.value = report.utility.statistics.mean := by
      rw [value, mean, objective]
      exact encoded.value_eq carried hn enc.paths built
    exact ⟨_, encoded.strategy, encoded.covers, iff_of_true same (.inl ⟨cut, free⟩),
      fun _ _ => same⟩
  · have loose : o.probabilityCut = true ∨ f.model.lazyProbabilityCut = true →
        c.paths.cutSense = .le := by
      intro cut
      refine enc.paths.cutSense_eq_le hn ?_
      by_contra free
      exact equation ⟨cut, fun e he hc => free ⟨e, he, hc⟩⟩
    rcases value_eq_of_held enc hn loose small built found with ⟨σ, read, covers, held⟩
    rcases c.analyze_eq_ok hn exact analyzed read covers with ⟨value, mean⟩
    have same_iff : report.objective.value = report.utility.statistics.mean ↔
        leftOut d o c.paths direction σ = 0 := by
      rw [value, mean, objective, show (Objective.expected e).value s = e.value s from rfl, held,
        finite.injEq, sub_eq_self]
    refine ⟨σ, read, covers, ?_, fun admitted upheld => ?_⟩
    · rw [same_iff, or_iff_right equation]
    · exact same_iff.mpr (leftOut_eq_zero enc hn covers admitted upheld)

end Report

/-! ## Reports on the wager -/

theorem exists_report_wager {c : Compiled Exact} {s : Solution Exact} {σ : Strategy}
    (read : c.decisions.strategy s = .ok σ) (covers : σ.Covers (wager false)) (info : RunInfo) :
    ∃ report, c.analyze (wager false) s .default info = .ok report := by
  have built : (wagerFile false .default).build = .ok (wager false) :=
    except_eq_ok_of_isOk _ (by decide +kernel)
  have normalized := normalized_wager false
  refine c.exists_report normalized read covers (fun p hp _ => ?_) (by decide +kernel) info
  exact (DiagramFile.attained_of_build built).exists_rawPathUtility Scalar.hasShares_exact
    normalized.generated (by decide +kernel) (by decide +kernel) (Strategy.mem_followers.mp hp).1

/-- The report on the wager gives one both as the value of the objective and as the mean. -/
theorem objective_eq_mean_iff_wager :
    ∃ (c : Compiled Exact) (s : Solution Exact) (report : SolveReport Exact),
      (wagerFile false .default).compileWith (wager false) ⟨true, [], .empty, true, 1, none⟩ =
        .ok c ∧
      solve ⟨2, 0⟩ c.program = .ok s ∧
      c.analyze (wager false) s .default ⟨"run", "now", "wager", "search"⟩ = .ok report ∧
      report.objective.value = report.utility.statistics.mean := by
  rcases exists_eq_ok_of_any
    (x := (wagerFile false .default).compileWith (wager false) ⟨true, [], .empty, true, 1, none⟩)
    (fun c => c.program.vars.size == 6 &&
      (solve ⟨2, 0⟩ c.program).toOption.any fun s => (c.decisions.strategy s).isOk)
    (by decide +kernel) with ⟨c, run, checks⟩
  rw [Bool.and_eq_true, beq_iff_eq] at checks
  rcases checks with ⟨size, checks⟩
  have small : c.program.vars.size < Word.count64 := by rw [size]; decide
  rcases exists_eq_ok_of_any _ checks with ⟨s, found, read⟩
  have read := except_eq_ok_of_isOk ⟨[]⟩ read
  rcases DiagramFile.decisions_of_compileWith run with ⟨laidOut, first⟩
  have covers := DecisionVariables.covers_of_strategy laidOut (normalized_wager false).arranged
    (normalized_wager false).assembled (first.trans_lt small) read
  rcases exists_report_wager read covers ⟨"run", "now", "wager", "search"⟩ with ⟨report, analyzed⟩
  rcases objective_eq_mean_iff run rfl (normalized_wager false) small found rfl analyzed with
    ⟨τ, -, -, same, -⟩
  exact ⟨c, _, report, run, found, analyzed, same.mpr (.inl ⟨.inl rfl, fun e he => by cases he⟩)⟩

/-- The wager with the coin forced to heads. -/
def forcedWagerFile : DiagramFile Exact :=
  { wagerFile false .default with
    model := { ModelSection.default with fixed := [("coin", .name "heads")] } }

/-- With the coin forced to heads, the value of the objective is that of heads alone, while tails
goes into the mean. -/
theorem objective_ne_mean_forced :
    forcedWagerFile.validate = .ok () ∧ forcedWagerFile.build = .ok (wager false) ∧
    (wager false).Normalized ∧ forcedWagerFile.model.objective.kind = .expectedValue ∧
    ∃ (c : Compiled Exact) (s : Solution Exact) (report : SolveReport Exact),
      forcedWagerFile.compile (wager false) = .ok c ∧ solve ⟨2, 0⟩ c.program = .ok s ∧
      c.analyze (wager false) s .default ⟨"run", "now", "wager", "search"⟩ = .ok report ∧
      report.objective.value = finite (3 / 2) ∧ report.utility.statistics.mean = 1 ∧
      report.objective.value ≠ report.utility.statistics.mean := by
  have normalized := normalized_wager false
  refine ⟨except_eq_ok_of_isOk () (by decide +kernel), except_eq_ok_of_isOk _ (by decide +kernel),
    normalized, rfl, ?_⟩
  rcases exists_eq_ok_of_any (x := forcedWagerFile.compile (wager false))
    (fun c => c.program.vars.size == 4 && (c.paths.cutSense == .le &&
      (solve ⟨2, 0⟩ c.program).toOption.any fun s =>
        decide (c.objective.value s = finite (3 / 2)) &&
          (c.decisions.strategy s).toOption.any fun σ : Strategy =>
            decide (σ.expectation (wager false) = 1)))
    (by decide +kernel) with ⟨c, run, checks⟩
  rw [Bool.and_eq_true, Bool.and_eq_true, beq_iff_eq, beq_iff_eq] at checks
  rcases checks with ⟨size, sense, checks⟩
  rcases exists_eq_ok_of_any _ checks with ⟨s, found, checks⟩
  rw [Bool.and_eq_true, decide_eq_true_eq] at checks
  rcases checks with ⟨value, checks⟩
  rcases exists_eq_ok_of_any _ checks with ⟨σ, read, mean⟩
  rcases except_bind_eq_ok.mp run with ⟨o, -, compiled⟩
  rcases DiagramFile.compileWith_expected compiled rfl with ⟨m, e, enc, built, -, program⟩
  have small : c.decisions.vars.length < Word.count64 := by
    rw [program, Program.withObjective, enc.size_eq] at size
    have few : c.decisions.vars.length ≤ 4 := by omega
    exact few.trans_lt (by decide)
  rcases value_eq_of_held enc normalized (fun _ => sense) small built (program ▸ found) with
    ⟨τ, read', covers, -⟩
  obtain rfl := Except.ok.inj (read.symm.trans read')
  rcases exists_report_wager read covers ⟨"run", "now", "wager", "search"⟩ with ⟨report, analyzed⟩
  rcases c.analyze_eq_ok normalized rfl analyzed read covers with ⟨value', mean'⟩
  rw [decide_eq_true_eq] at mean
  rw [value] at value'
  rw [mean] at mean'
  refine ⟨c, s, report, run, found, analyzed, value', mean', ?_⟩
  rw [value', mean', ne_eq, finite.injEq]
  norm_num

end Influence
