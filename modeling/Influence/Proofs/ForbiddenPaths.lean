import Influence.Proofs.ExpectedUtility
import Influence.Proofs.TailEncoding

/-!
# Forbidden paths

Nothing forbids a path but that it gets no variable.  Where the cut is an equation, this leaves
mass uncovered that a strategy taking the path needs, so no exact assignment of a compiled program
reads back as such a strategy (`admitted_of_isFeasible`).  Where a chance node is forced, the
cut is an upper bound, and every strategy has an assignment, whatever paths it takes
(`exists_isFeasible_of_forced`).
-/

namespace Influence

open Extended Program

open DecisionVariables (strategyOf bitsOf picksOf)

/-! ## What objectives add -/

theorem TailUtility.grows_of_succeeds {α : Type} [Scalar α] {d : Diagram α} {x : PathVariables α}
    {alpha : α} {t : TailUtility α} {m m' : Program α} (run : Succeeds (build d x alpha) m t m') :
    ∃ vs cs, Grows m m' vs cs := by
  obtain ⟨-, os, s, -, -, made⟩ := succeeds_build_iff.mp run
  rcases succeeds_buildOver made with ⟨-, rfl, -⟩ | ⟨-, -, grows⟩
  · exact ⟨[], [], .refl m'⟩
  · exact ⟨_, _, grows⟩

/-- An objective adds its variables and constraints behind those of the program. -/
theorem DiagramFile.grows_addObjective {α : Type} [Scalar α] {f : DiagramFile α} {d : Diagram α}
    {x : PathVariables α} {objective : Objective α} {m m' : Program α}
    (run : Succeeds (f.addObjective d x) m objective m') : ∃ vs cs, Grows m m' vs cs := by
  unfold addObjective at run
  split at run
  case h_1 =>
    obtain ⟨e, -, run⟩ := succeeds_lift_bind.mp run
    obtain ⟨-, rfl⟩ := succeeds_pure.mp run
    exact ⟨[], [], .refl m⟩
  case h_2 =>
    split at run
    case h_1 => exact absurd run not_succeeds_throw
    case h_2 alpha _ =>
      obtain ⟨t, u, built, run⟩ := succeeds_bind.mp run
      obtain ⟨-, rfl⟩ := succeeds_pure.mp run
      exact TailUtility.grows_of_succeeds built

/-- The decision variables of a compiled program come first among its variables. -/
theorem DiagramFile.decisions_of_compileWith {α : Type} [Scalar α] {f : DiagramFile α}
    {d : Diagram α} {o : PathVariableOptions α} {c : Compiled α} (run : f.compileWith d o = .ok c) :
    DecisionVariables.LaidOut d c.decisions 0 ∧
      c.decisions.vars.length ≤ c.program.vars.size := by
  obtain ⟨m₀, m, enc, added, program, -⟩ := compileWith_eq_ok run
  obtain ⟨vs, cs, grows⟩ := grows_addObjective added
  refine ⟨enc.decisions, ?_⟩
  have size : c.program.vars.size = m₀.vars.size + vs.length := by rw [program, ← grows.size]; rfl
  rw [size, enc.size_eq, Nat.add_assoc]
  exact Nat.le_add_right _ _

section Compiled

variable {f : DiagramFile Exact} {d : Diagram Exact} {o : PathVariableOptions Exact}
  {c : Compiled Exact}

/-- What is feasible for a compiled program fits the variables and constraints before those of the
objective. -/
theorem DiagramFile.fits_of_isFeasible (run : f.compileWith d o = .ok c)
    (small : c.program.vars.size < Word.count64) {values : Array Exact}
    (feasible : c.program.isFeasible values 0 = true) :
    ∃ m, Encoding d o f.model.lazyProbabilityCut c.decisions c.paths m ∧
      c.decisions.vars.length < Word.count64 ∧
      c.decisions.vars.length + c.paths.vars.length ≤ values.size ∧
      Fits values 0 m.vars.toList m.constraints.toList := by
  obtain ⟨m₀, m, enc, added, program, -⟩ := compileWith_eq_ok run
  obtain ⟨vs, cs, grows⟩ := grows_addObjective added
  have small := (decisions_of_compileWith run).2.trans_lt small
  have feasible : m.isFeasible values 0 = true := by
    rw [program] at feasible
    exact feasible
  obtain ⟨length, fits, -⟩ := grows.isFeasible_iff.mp feasible
  rw [enc.size_eq] at length
  exact ⟨m₀, enc, small, by omega, fits⟩

/-- It satisfies these constraints, if there is a cut. -/
theorem DiagramFile.satisfies_of_isFeasible (run : f.compileWith d o = .ok c) (hn : d.Normalized)
    (cut : o.probabilityCut = true ∨ f.model.lazyProbabilityCut = true)
    (small : c.program.vars.size < Word.count64) {values : Array Exact}
    (feasible : c.program.isFeasible values 0 = true) :
    ∃ m, Encoding d o f.model.lazyProbabilityCut c.decisions c.paths m ∧
      c.decisions.vars.length < Word.count64 ∧ IsAssignment c.decisions c.paths values ∧
      Satisfies d o c.decisions c.paths 0 (reading values) := by
  obtain ⟨m, enc, small, size, fits⟩ := fits_of_isFeasible run small feasible
  exact ⟨m, enc, small, (enc.fits_iff hn cut small size).mp fits⟩

/-- Forbidden paths are not taken where no chance node is forced: a feasible assignment of a
compiled program reads back as a strategy none of whose compatible paths of positive probability
takes a forbidden combination, or leaves a forced state.  Variables are numbered by machine
words. -/
theorem admitted_of_isFeasible (run : f.compileWith d o = .ok c) (hn : d.Normalized)
    (cut : o.probabilityCut = true ∨ f.model.lazyProbabilityCut = true)
    (free : ∀ e ∈ o.fixed.entries, e.1 ∉ d.chance) (small : c.program.vars.size < Word.count64)
    {s : Solution Exact} (feasible : c.program.isFeasible s.values 0 = true) :
    ∃ σ, c.decisions.strategy s = .ok σ ∧ σ.Covers d ∧ σ.Admitted d o := by
  obtain ⟨m, enc, small, assignment, satisfies⟩ :=
    DiagramFile.satisfies_of_isFeasible run hn cut small feasible
  obtain ⟨encoded, carried⟩ := enc.encoded_of_satisfies hn free small assignment satisfies
  exact ⟨_, encoded.strategy, encoded.covers,
    (encoded.covers.carried_iff_admitted hn enc.paths).mp carried⟩

/-- Who may not bet does not. -/
theorem admitted_of_isFeasible_wager :
    ∃ (c : Compiled Exact) (σ : Strategy), (wagerFile false .default).compileWith (wager false)
        ⟨true, [⟨[0], [[1]]⟩], .empty, true, 1, none⟩ = .ok c ∧
      c.program.isFeasible #[1, 0, 1, 1] 0 = true ∧
      c.decisions.strategy (⟨#[1, 0, 1, 1], 0⟩ : Solution Exact) = .ok σ ∧
      σ.Admitted (wager false) ⟨true, [⟨[0], [[1]]⟩], .empty, true, 1, none⟩ := by
  obtain ⟨c, run, checks⟩ := exists_eq_ok_of_any
    (x := (wagerFile false .default).compileWith (wager false)
      ⟨true, [⟨[0], [[1]]⟩], .empty, true, 1, none⟩)
    (fun c => c.program.vars.size == 4 && c.program.isFeasible #[1, 0, 1, 1] 0)
    (by decide +kernel)
  rw [Bool.and_eq_true, beq_iff_eq] at checks
  obtain ⟨size, feasible⟩ := checks
  obtain ⟨σ, read, -, admitted⟩ := admitted_of_isFeasible run (normalized_wager false) (.inl rfl)
    (fun e he => by cases he) (by rw [size]; decide) (s := ⟨#[1, 0, 1, 1], 0⟩) feasible
  exact ⟨c, σ, run, feasible, read, admitted⟩

/-- Where the coin is forced to heads, a feasible assignment reads back as the bet, although the bet
is forbidden. -/
theorem forbidden_taken_wager : (wager false).Normalized ∧
    ∃ (c : Compiled Exact) (σ : Strategy) (ps : List Path) (p : Path),
      (wagerFile false .default).compileWith (wager false)
        ⟨true, [⟨[0], [[1]]⟩], ⟨[(1, 1)]⟩, true, 1, none⟩ = .ok c ∧
      c.program.isFeasible #[0, 1, 0] 0 = true ∧
      c.decisions.strategy (⟨#[0, 1, 0], 0⟩ : Solution Exact) = .ok σ ∧
      σ.compatiblePaths (wager false) .empty = .ok ps ∧ p ∈ ps ∧ 0 < (wager false).weight p ∧
      p[1]? = some 1 ∧ ForbiddenPath.covers ⟨[0], [[1]]⟩ p = true := by
  refine ⟨normalized_wager false, ?_⟩
  obtain ⟨c, run, checks⟩ := exists_eq_ok_of_any
    (x := (wagerFile false .default).compileWith (wager false)
      ⟨true, [⟨[0], [[1]]⟩], ⟨[(1, 1)]⟩, true, 1, none⟩)
    (fun c => c.program.isFeasible #[0, 1, 0] 0 &&
      (c.decisions.strategy (⟨#[0, 1, 0], 0⟩ : Solution Exact)).toOption.any fun σ =>
        (σ.compatiblePaths (wager false) .empty).toOption.any fun ps => decide ([1, 1] ∈ ps))
    (by decide +kernel)
  rw [Bool.and_eq_true] at checks
  obtain ⟨feasible, reads⟩ := checks
  obtain ⟨σ, read, follows⟩ := exists_eq_ok_of_any _ reads
  obtain ⟨ps, paths, member⟩ := exists_eq_ok_of_any _ follows
  exact ⟨c, σ, ps, [1, 1], run, feasible, read, paths, of_decide_eq_true member,
    by decide +kernel, rfl, by decide⟩

/-! ## Forced chance nodes -/

/-- With a forced chance node the cut is an upper bound. -/
theorem PathVariables.LaidOut.cutSense_eq_le {z : DecisionVariables} {x : PathVariables Exact}
    {start : ℕ} (h : PathVariables.LaidOut d z o x start) (hn : d.Normalized)
    (forced : ∃ e ∈ o.fixed.entries, e.1 ∈ d.chance) : x.cutSense = .le := by
  obtain ⟨found, run, sense⟩ := h.cutSense
  have found_eq : found = true := by
    clear sense
    generalize o.fixed.entries = entries at forced run
    induction entries with
    | nil =>
      obtain ⟨e, he, -⟩ := forced
      cases he
    | cons e entries ih =>
      obtain ⟨i, s⟩ := e
      unfold PathVariables.forcesChance at run
      split at run
      case h_1 => cases run
      case h_2 n hn' =>
        by_cases kind : n.kind = .chance
        · rw [if_pos kind] at run
          exact (Except.ok.inj run).symm
        · rw [if_neg kind] at run
          refine ih ?_ run
          obtain ⟨e, he, chance⟩ := forced
          rcases List.mem_cons.mp he with rfl | later
          · exact absurd ((hn.arranged.mem_chance hn').mp chance) kind
          · exact ⟨e, later, chance⟩
  rw [sense, found_eq]
  rfl

/-- Where a chance node is forced, every strategy has a feasible assignment of the program for the
expected utility, also one that takes forbidden paths. -/
theorem exists_isFeasible_of_forced (run : f.compileWith d o = .ok c)
    (kind : f.model.objective.kind = .expectedValue) (hn : d.Normalized)
    (cut : o.probabilityCut = true ∨ f.model.lazyProbabilityCut = true)
    (forced : ∃ e ∈ o.fixed.entries, e.1 ∈ d.chance) (small : c.program.vars.size < Word.count64)
    {σ : Strategy} (covers : σ.Covers d) :
    ∃ (s : Solution Exact) (τ : Strategy), c.program.isFeasible s.values 0 = true ∧
      c.decisions.strategy s = .ok τ ∧ ∀ i ∈ d.decision, τ.local? i = σ.local? i := by
  obtain ⟨m, e, enc, -, -, program⟩ := DiagramFile.compileWith_expected run kind
  have small : c.decisions.vars.length < Word.count64 := by
    rw [program, Program.withObjective, enc.size_eq] at small
    omega
  set values := valuesOf m.vars.size (assignmentOf d c.decisions c.paths σ) with made
  obtain ⟨size, assignment, choice, same, shares⟩ := enc.assignmentOf_spec hn covers made
  have covers' := choice.covers_strategyOf enc.decisions hn.arranged hn.assembled small
  have mass : ∑ p ∈ d.paths, d.weight p * shareAt c.paths (reading values) p ≤ 1 := by
    rw [mass_of_follows enc shares, ← sum_weight_followers hn covers']
    exact Finset.sum_le_sum_of_subset_of_nonneg (Finset.filter_subset _ _) fun p hp _ =>
      hn.weighed.weight_nonneg (Strategy.mem_followers.mp hp).1
  refine ⟨⟨values, 0⟩, strategyOf c.decisions (reading values), ?_, ?_, same⟩
  · rw [program]
    refine (enc.isFeasible_iff hn cut small).mpr ⟨size, assignment, ?_⟩
    refine satisfies_of_cut enc hn small choice shares ?_
    rw [enc.paths.cutSense_eq_le hn forced, enc.paths.sum_scaled hn]
    change _ ≤ _
    nlinarith [enc.paths.scale_eq.2]
  · exact DecisionVariables.strategy_eq_ok choice enc.decisions hn.arranged small fun v hv =>
      assignment.isFinite v ((enc.mem_vars_lt hv).trans_le (Nat.le_add_right _ _))

end Compiled

end Influence
