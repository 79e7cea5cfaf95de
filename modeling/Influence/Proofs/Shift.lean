import Influence.Proofs.ExpectedUtility

/-!
# Shifted utilities

Asking for a sign changes a generated diagram by its shift and its sign alone
(`Diagram.generate_shifted`), and the program of the diagram by its objective alone, if the linking
lower bound is asked for.  The objective grows by the scaled shift times the mass that the path
variables cover (`evaluate_shifted`).  Where all feasible assignments cover the same mass, shifting
therefore does not change which of them are optimal (`isOptimal_shifted_iff`).
-/

namespace Influence

open Extended Program

/-! ## Generation with and without a sign -/

namespace Diagram

/-- What sign is asked for matters to the shift and the sign of a generated diagram alone. -/
theorem generate_resigned {d₀ d d' : Diagram Exact} {o o' : GenerateOptions}
    (run : d₀.after (generate o) = .ok d) (run' : d₀.after (generate o') = .ok d')
    (probability : o'.defaultProbability = o.defaultProbability)
    (utility : o'.defaultUtility = o.defaultUtility) :
    ∃ shift sign, d' = { d with shift, sign } := by
  have fill : fillProbability (α := Exact) o' = fillProbability o := by
    funext j
    unfold fillProbability
    rw [probability]
  have settle : settleUtility (α := Exact) o' = settleUtility o := by
    unfold settleUtility
    rw [utility]
  obtain ⟨-, -, d₁, d₂, d₃, filled, settled, last, rfl⟩ :=
    succeeds_generate_iff.mp (after_eq_ok_iff.mp run)
  obtain ⟨-, -, e₁, e₂, e₃, filled', settled', last', rfl⟩ :=
    succeeds_generate_iff.mp (after_eq_ok_iff.mp run')
  rw [fill] at filled'
  obtain rfl : e₁ = d₁ := (filled.unique filled').2
  rw [settle] at settled'
  obtain rfl : e₂ = d₂ := (settled.unique settled').2
  obtain ⟨shift, sign, rfl, -⟩ := succeeds_settleSign last
  obtain ⟨shift', sign', rfl, -⟩ := succeeds_settleSign last'
  exact ⟨shift', sign', rfl⟩

/-- Asking for a sign changes the shift and the sign of a generated diagram alone. -/
theorem generate_shifted {d₀ d d' : Diagram Exact} {probability utility positive negative : Bool}
    (plain : d₀.after (generate ⟨probability, utility, false, false⟩) = .ok d)
    (signed : d₀.after (generate ⟨probability, utility, positive, negative⟩) = .ok d') :
    d.shift = 0 ∧ ∃ shift sign, d' = { d with shift, sign } := by
  refine ⟨?_, generate_resigned plain signed rfl rfl⟩
  obtain ⟨-, -, _, _, _, -, -, last, rfl⟩ := succeeds_generate_iff.mp (after_eq_ok_iff.mp plain)
  obtain ⟨_, _, rfl, unshifted⟩ := succeeds_settleSign last
  exact (unshifted rfl).1

end Diagram

/-! ## Programs of shifted diagrams -/

section Shifted

variable {α : Type} [Scalar α] (d : Diagram α) (shift : α) (sign : UtilitySign)

omit [Scalar α] in
theorem PathVariables.forcesChance_shifted (entries : List (ℕ × ℕ)) :
    forcesChance { d with shift, sign } entries = forcesChance d entries := by
  induction entries with
  | nil => rfl
  | cons e entries ih =>
    unfold forcesChance
    rw [ih]

theorem PathVariables.link_shifted (z : DecisionVariables) (p : Path) :
    link { d with shift, sign } z p = link d z p := by
  funext x nodes
  induction nodes with
  | nil => rfl
  | cons node nodes ih =>
    funext e
    unfold link
    rw [ih]
    rfl

/-- The linking lower bound looks at the sign only where it is left to it. -/
theorem PathVariables.build_shifted {o : PathVariableOptions α} {bound : Bool}
    (asked : o.lowerBound = some bound) (z : DecisionVariables) :
    build { d with shift, sign } z o = build d z o := by
  have binds : bindsBelow { d with shift, sign } o = bindsBelow d o := by
    rw [bindsBelow, asked, bindsBelow, asked, Option.getD_some, Option.getD_some]
  have add : addPath { d with shift, sign } z o = addPath d z o := by
    funext p
    unfold addPath
    rw [link_shifted, binds]
  have adds : addUnlessOmitted { d with shift, sign } z o = addUnlessOmitted d z o := by
    funext p
    unfold addUnlessOmitted
    rw [add]
    rfl
  unfold build
  rw [forcesChance_shifted, adds]
  rfl

/-- Shifting changes the program of a diagram by its objective alone. -/
theorem DiagramFile.compileWith_shifted {f : DiagramFile α} {o : PathVariableOptions α}
    {c c' : Compiled α} {bound : Bool} (asked : o.lowerBound = some bound)
    (run : f.compileWith d o = .ok c) (run' : f.compileWith { d with shift, sign } o = .ok c')
    (kind : f.model.objective.kind = .expectedValue) :
    ∃ m e e', Encoding d o f.model.lazyProbabilityCut c.decisions c.paths m ∧
      ExpectedUtility.build d c.paths = .ok e ∧
      ExpectedUtility.build { d with shift, sign } c.paths = .ok e' ∧
      c.program = m.withObjective (.ofFlag f.model.objective.maximize) e.expr ∧
      c'.program = m.withObjective (.ofFlag f.model.objective.maximize) e'.expr := by
  obtain ⟨m₁, m, e, decisions, paths, built, -, program⟩ := compileWith_expected_runs run kind
  obtain ⟨m₁', m', e', decisions', paths', built', -, program'⟩ :=
    compileWith_expected_runs run' kind
  obtain ⟨same, rfl⟩ := decisions.unique decisions'
  have added : f.addPaths { d with shift, sign } o = f.addPaths d o := by
    funext z
    unfold addPaths
    rw [PathVariables.build_shifted d shift sign asked]
    rfl
  rw [added, same] at paths'
  obtain ⟨same, rfl⟩ := paths.unique paths'
  rw [same] at built'
  exact ⟨m', e, e', encoding_of_succeeds decisions paths, built, built', program, program'⟩

end Shifted

/-! ## Covered mass -/

/-- The probability mass that path variables cover. -/
def PathVariables.coveredMass (d : Diagram Exact) (x : PathVariables Exact)
    (values : Array Exact) : ℚ :=
  (x.vars.map fun t => d.weight t.1 * reading values t.2).sum

section Covered

variable {d : Diagram Exact} {o : PathVariableOptions Exact} {isLazy : Bool}
  {z : DecisionVariables} {x : PathVariables Exact} {m : Program Exact} {values : Array Exact}

/-- With the cut and no forced chance node, feasible assignments cover everything. -/
theorem coveredMass_of_cut (enc : Encoding d o isLazy z x m) (hn : d.Normalized)
    (cut : o.probabilityCut = true ∨ isLazy = true) (free : ∀ e ∈ o.fixed.entries, e.1 ∉ d.chance)
    (small : z.vars.length < Word.count64) (feasible : m.isFeasible values 0 = true) :
    x.coveredMass d values = 1 := by
  obtain ⟨-, -, satisfies⟩ := (enc.isFeasible_iff hn cut small).mp feasible
  have equation := satisfies.cut
  rw [enc.cutSense_eq hn free, enc.paths.sum_scaled hn, ← enc.paths.sum_vars hn] at equation
  have zero := abs_eq_zero.mp (le_antisymm equation (abs_nonneg _))
  have pos := enc.paths.scale_eq.2
  change x.scale.rational * x.coveredMass d values - x.scale.rational = 0 at zero
  have product : x.scale.rational * (x.coveredMass d values - 1) = 0 := by linarith
  linarith [(mul_eq_zero.mp product).resolve_left pos.ne']

/-- With the linking lower bound and all paths admitted, feasible assignments cover everything, with
or without a cut. -/
theorem coveredMass_of_bound (enc : Encoding d o isLazy z x m) (hn : d.Normalized)
    (bound : o.lowerBound = some true) (decides : d.decision ≠ []) (unforced : o.fixed = .empty)
    (unforbidden : o.forbidden = []) (small : z.vars.length < Word.count64)
    (feasible : m.isFeasible values 0 = true) : x.coveredMass d values = 1 := by
  have assignment := enc.isAssignment_of_isFeasible feasible
  have linked := enc.isLinked_of_isFeasible hn small feasible
  have covers := (linked.isChoice assignment.bits).covers_strategyOf enc.decisions hn.arranged
    hn.assembled small
  have binds : (PathVariables.bindsBelow d o && !d.decision.isEmpty) = true := by
    rw [PathVariables.bindsBelow, bound, List.isEmpty_eq_false_iff.mpr decides]
    rfl
  have shares : ∀ t ∈ x.vars, reading values t.2 =
      if (DecisionVariables.strategyOf z (reading values)).Follows d t.1 then 1 else 0 :=
    fun t ht => linked.share_eq enc hn small assignment.bits binds ht (assignment.shares t ht)
  rw [PathVariables.coveredMass, enc.paths.sum_vars hn, mass_of_follows enc shares,
    ← sum_weight_followers hn covers]
  refine Finset.sum_subset (Finset.filter_subset _ _) fun p hp out => ?_
  by_contra weight
  refine out (Finset.mem_filter.mpr ⟨hp, (enc.paths.mem_paths_iff hn).mpr
    ⟨(Strategy.mem_followers.mp hp).1, weight, ?_, fun i s hs => ?_⟩⟩)
  · rw [unforbidden]
    exact fun _ hf => by cases hf
  · rw [unforced] at hs
    cases hs

end Covered

/-! ## Objectives of shifted diagrams -/

section Objective

variable {d : Diagram Exact} {shift : Exact} {sign : UtilitySign} {o : PathVariableOptions Exact}
  {z : DecisionVariables} {x : PathVariables Exact}

theorem PathVariables.LaidOut.shifted {start : ℕ} (h : PathVariables.LaidOut d z o x start) :
    PathVariables.LaidOut { d with shift, sign } z o x start :=
  ⟨h.scale, h.isFinite_scale, h.scale_pos, by
    obtain ⟨forced, run, sense⟩ := h.cutSense
    exact ⟨forced, (PathVariables.forcesChance_shifted d shift sign _).trans run, sense⟩,
    h.paths, h.vars, h.selects⟩

/-- The shift adds to the objective its multiple of the mass that is covered. -/
theorem evaluate_shifted {isLazy : Bool} {m : Program Exact} (enc : Encoding d o isLazy z x m)
    (hn : d.Normalized) (hn' : Diagram.Normalized { d with shift, sign }) (unshifted : d.shift = 0)
    {e e' : ExpectedUtility Exact} (built : ExpectedUtility.build d x = .ok e)
    (built' : ExpectedUtility.build { d with shift, sign } x = .ok e') {values : Array Exact}
    (assignment : IsAssignment z x values) :
    ∃ y : ℚ, e.expr.compact.evaluate values = finite y ∧ e'.expr.compact.evaluate values =
      finite (y + x.scale.rational * shift.rational * x.coveredMass d values) := by
  have hv : ∀ t ∈ x.vars, values.getD t.2 0 = finite (reading values t.2) := fun t ht =>
    assignment.isFinite t.2 (enc.paths.var_mem ht).2
  have split : ∑ p ∈ d.paths,
        d.weight p * (d.utility p + shift.rational) * shareAt x (reading values) p =
      ∑ p ∈ d.paths, d.weight p * (d.utility p + d.shift.rational) * shareAt x (reading values) p +
        shift.rational * x.coveredMass d values := by
    rw [PathVariables.coveredMass, enc.paths.sum_vars hn, Finset.mul_sum,
      ← Finset.sum_add_distrib, unshifted]
    refine Finset.sum_congr rfl fun p _ => ?_
    rw [zero_eq_finite, rational_finite]
    ring
  refine ⟨_, ExpectedUtility.evaluate_compact enc.paths hn built hv, ?_⟩
  rw [mul_assoc, ← mul_add, ← split]
  exact ExpectedUtility.evaluate_compact enc.paths.shifted hn' built' hv

end Objective

/-! ## Optimal assignments -/

/-- A feasible assignment that no other beats. -/
def Program.IsOptimal (m : Program Exact) (values : Array Exact) : Prop :=
  m.isFeasible values 0 = true ∧ ∀ others, m.isFeasible others 0 = true →
    match m.direction with
    | .maximize => m.objective.evaluate others ≤ m.objective.evaluate values
    | .minimize => m.objective.evaluate values ≤ m.objective.evaluate others

/-- All feasible assignments of a program cover the same mass. -/
def CoversEvenly (d : Diagram Exact) (c : Compiled Exact) : Prop :=
  ∃ mass, ∀ values, c.program.isFeasible values 0 = true → c.paths.coveredMass d values = mass

/-- An objective that differs by a constant has the same optimal assignments. -/
private theorem isOptimal_iff_of_offset {m m' : Program Exact} (k : ℚ)
    (same : ∀ values, m'.isFeasible values 0 = m.isFeasible values 0)
    (direction : m'.direction = m.direction)
    (offset : ∀ values, m.isFeasible values 0 = true → ∃ y : ℚ,
      m.objective.evaluate values = finite y ∧ m'.objective.evaluate values = finite (y + k))
    (values : Array Exact) : m'.IsOptimal values ↔ m.IsOptimal values := by
  unfold Program.IsOptimal
  rw [direction]
  simp only [same]
  refine and_congr_right fun feasible => forall₂_congr fun others feasible' => ?_
  obtain ⟨y, value, value'⟩ := offset values feasible
  obtain ⟨y', other, other'⟩ := offset others feasible'
  rw [value, value', other, other']
  cases m.direction with
  | maximize => exact add_le_add_iff_right k
  | minimize => exact add_le_add_iff_right k

theorem Diagram.Normalized.shifted {d : Diagram Exact} (hn : d.Normalized) {shift : Exact}
    {sign : UtilitySign} (reachable : Diagram.Reachable { d with shift, sign }) :
    Diagram.Normalized { d with shift, sign } := ⟨reachable, hn.generated, hn.rows, hn.custom⟩

/-- Shifting utilities to a sign keeps what is feasible, if the linking lower bound is asked for,
and adds to the objective the scaled shift times the mass that is covered.  So it keeps which
assignments are optimal where all feasible ones cover the same mass.  These are the programs with
the cut and without forced chance nodes, and those of diagrams with decisions where nothing is
forced or forbidden.  Variables are numbered by machine words. -/
theorem isOptimal_shifted_iff {f : DiagramFile Exact} {d₀ d d' : Diagram Exact}
    {probability utility positive negative : Bool} {o : PathVariableOptions Exact}
    {c c' : Compiled Exact} (assembled : Diagram.Reachable d₀)
    (plain : d₀.after (Diagram.generate ⟨probability, utility, false, false⟩) = .ok d)
    (signed : d₀.after (Diagram.generate ⟨probability, utility, positive, negative⟩) = .ok d')
    (hn : d.Normalized) (run : f.compileWith d o = .ok c) (run' : f.compileWith d' o = .ok c')
    (kind : f.model.objective.kind = .expectedValue) (bound : o.lowerBound = some true)
    (small : c.program.vars.size < Word.count64) :
    (∀ values, c'.program.isFeasible values 0 = c.program.isFeasible values 0) ∧
      (∀ values, c.program.isFeasible values 0 = true → ∃ y : ℚ,
        c.program.objective.evaluate values = finite y ∧
        c'.program.objective.evaluate values = finite
          (y + c.paths.scale.rational * d'.shift.rational * c.paths.coveredMass d values)) ∧
      (CoversEvenly d c → ∀ values, c'.program.IsOptimal values ↔ c.program.IsOptimal values) ∧
      (((o.probabilityCut = true ∨ f.model.lazyProbabilityCut = true) ∧
            ∀ e ∈ o.fixed.entries, e.1 ∉ d.chance) ∨
          (o.fixed = .empty ∧ o.forbidden = [] ∧ d.decision ≠ []) → CoversEvenly d c) := by
  obtain ⟨unshifted, shift, sign, rfl⟩ := Diagram.generate_shifted plain signed
  have reachable : Diagram.Reachable { d with shift, sign } :=
    assembled.after (Diagram.keeps_reachable (.generate _)) signed
  obtain ⟨m, e, e', enc, built, built', program, program'⟩ :=
    DiagramFile.compileWith_shifted d shift sign bound run run' kind
  have small : c.decisions.vars.length < Word.count64 := by
    rw [program, Program.withObjective, enc.size_eq] at small
    omega
  have feasible (values : Array Exact) :
      c.program.isFeasible values 0 = m.isFeasible values 0 := by rw [program]; rfl
  have same (values : Array Exact) :
      c'.program.isFeasible values 0 = c.program.isFeasible values 0 := by
    rw [feasible, program']
    rfl
  have grows (values : Array Exact) (hv : c.program.isFeasible values 0 = true) : ∃ y : ℚ,
      c.program.objective.evaluate values = finite y ∧
      c'.program.objective.evaluate values = finite
        (y + c.paths.scale.rational * shift.rational * c.paths.coveredMass d values) := by
    rw [feasible] at hv
    rw [program, program']
    exact evaluate_shifted enc hn (hn.shifted reachable) unshifted built built'
      (enc.isAssignment_of_isFeasible hv)
  refine ⟨same, grows, ?_, ?_⟩
  · rintro ⟨mass, even⟩
    refine isOptimal_iff_of_offset (c.paths.scale.rational * shift.rational * mass) same
      (by rw [program, program']; rfl) fun values hv => ?_
    rw [← even values hv]
    exact grows values hv
  · rintro (⟨cut, free⟩ | ⟨unforced, unforbidden, decides⟩)
    · refine ⟨1, fun values hv => coveredMass_of_cut enc hn cut free small ?_⟩
      rwa [← feasible]
    · refine ⟨1, fun values hv => coveredMass_of_bound enc hn bound decides unforced unforbidden
        small ?_⟩
      rwa [← feasible]

/-! ## A commute -/

/-- A commute: who leaves early has an even chance to catch the train, who leaves late has none,
and both cost one.  Without decisions the time to leave is left to chance. -/
def commuteFile (decides : Bool) : DiagramFile Exact where
  schemaVersion := schemaVersion
  description := none
  nodes := [⟨"leave", if decides then .decision else .chance, [], ["early", "late"]⟩,
    ⟨"train", .chance, ["leave"], ["missed", "caught"]⟩, ⟨"cost", .value, ["leave"], []⟩]
  probabilities := [("train", .array [.array [.scalar (finite (1 / 2)), .scalar (finite (1 / 2))],
    .array [.scalar (finite 1), .scalar (finite 0)]])]
  utilities := [("cost", .array [.scalar (finite (-1)), .scalar (finite (-1))])]
  generate := .default
  model := .default

/-- The commute before it is generated. -/
def commuteTables (decides : Bool) : Diagram Exact :=
  (commuteFile decides).assemble.toOption.getD (.empty true)

/-- The commute, with utilities shifted to positive ones if asked for. -/
def commute (decides positive : Bool) : Diagram Exact :=
  ((commuteTables decides).after (Diagram.generate ⟨true, true, positive, false⟩)).toOption.getD
    (.empty true)

theorem reachable_commuteTables (decides : Bool) : (commuteTables decides).Reachable := by
  have assembled : (commuteFile decides).assemble.isOk = true := by
    cases decides <;> decide +kernel
  exact DiagramFile.reachable_of_assemble (except_eq_ok_of_isOk _ assembled)

theorem generate_commute (decides positive : Bool) : (commuteTables decides).after
    (Diagram.generate ⟨true, true, positive, false⟩) = .ok (commute decides positive) :=
  except_eq_ok_of_isOk _ (by cases decides <;> cases positive <;> decide +kernel)

theorem normalized_commute (decides positive : Bool) : (commute decides positive).Normalized := by
  have reachable : Diagram.Reachable (commute decides positive) :=
    (reachable_commuteTables decides).after (Diagram.keeps_reachable (.generate _))
      (generate_commute decides positive)
  refine .of_isAdditive reachable ?_ ?_ ?_ <;> cases decides <;> cases positive <;> decide +kernel

/-- Whoever must catch the train has the same choices under either utility. -/
theorem isOptimal_shifted_iff_commute :
    ∃ c c', (commuteFile true).compileWith (commute true false)
        ⟨true, [⟨[0, 1], [[1, 0]]⟩], .empty, true, 1, some true⟩ = .ok c ∧
      (commuteFile true).compileWith (commute true true)
        ⟨true, [⟨[0, 1], [[1, 0]]⟩], .empty, true, 1, some true⟩ = .ok c' ∧
      c.program.isFeasible #[1, 0, 1, 1] 0 = true ∧ CoversEvenly (commute true false) c ∧
      ∀ values, c'.program.IsOptimal values ↔ c.program.IsOptimal values := by
  obtain ⟨c, run, checks⟩ := exists_eq_ok_of_any
    (x := (commuteFile true).compileWith (commute true false)
      ⟨true, [⟨[0, 1], [[1, 0]]⟩], .empty, true, 1, some true⟩)
    (fun c => c.program.vars.size == 4 && c.program.isFeasible #[1, 0, 1, 1] 0)
    (by decide +kernel)
  obtain ⟨c', run', -⟩ := exists_eq_ok_of_any
    (x := (commuteFile true).compileWith (commute true true)
      ⟨true, [⟨[0, 1], [[1, 0]]⟩], .empty, true, 1, some true⟩)
    (fun _ => true) (by decide +kernel)
  rw [Bool.and_eq_true, beq_iff_eq] at checks
  obtain ⟨size, feasible⟩ := checks
  obtain ⟨-, -, optimal, even⟩ := isOptimal_shifted_iff (reachable_commuteTables true)
    (generate_commute true false) (generate_commute true true) (normalized_commute true false)
    run run' rfl rfl (by rw [size]; decide)
  have evenly := even (.inl ⟨.inl rfl, fun e he => by cases he⟩)
  exact ⟨c, c', run, run', feasible, evenly, optimal evenly⟩

/-- Where no utility is positive, an assignment that gains nothing is optimal. -/
theorem isOptimal_of_nonpos {f : DiagramFile Exact} {d : Diagram Exact}
    {o : PathVariableOptions Exact} {c : Compiled Exact} (run : f.compileWith d o = .ok c)
    (kind : f.model.objective.kind = .expectedValue) (maximize : f.model.objective.maximize = true)
    (hn : d.Normalized) (unshifted : d.shift = 0)
    (nonpos : ∀ p, inRange d.states p = true → d.utility p ≤ 0) {values : Array Exact}
    (feasible : c.program.isFeasible values 0 = true)
    (nothing : c.program.objective.evaluate values = finite 0) : c.program.IsOptimal values := by
  obtain ⟨m, e, enc, built, -, program⟩ := DiagramFile.compileWith_expected run kind
  refine ⟨feasible, fun others feasible' => ?_⟩
  have direction : c.program.direction = .maximize := by
    rw [program, maximize]
    rfl
  have assignment : IsAssignment c.decisions c.paths others := by
    rw [program] at feasible'
    exact enc.isAssignment_of_isFeasible feasible'
  have share_nonneg (p : Path) : 0 ≤ shareAt c.paths (reading others) p := by
    by_cases mem : p ∈ c.paths.vars.map (·.1)
    · obtain ⟨t, ht, rfl⟩ := List.mem_map.mp mem
      rw [enc.paths.shareAt_eq ht]
      exact (assignment.shares t ht).1
    · rw [shareAt_of_notMem mem]
  rw [direction, nothing, program]
  change e.expr.compact.evaluate others ≤ finite 0
  rw [ExpectedUtility.evaluate_compact enc.paths hn built fun t ht =>
    assignment.isFinite t.2 (enc.paths.var_mem ht).2, finite_le, unshifted]
  refine mul_nonpos_of_nonneg_of_nonpos enc.paths.scale_eq.2.le (Finset.sum_nonpos fun p hp => ?_)
  rw [zero_eq_finite, rational_finite, add_zero]
  exact mul_nonpos_of_nonpos_of_nonneg (mul_nonpos_of_nonneg_of_nonpos
    (hn.weighed.weight_nonneg (Diagram.mem_paths.mp hp)) (nonpos p (Diagram.mem_paths.mp hp)))
    (share_nonneg p)

/-- Shifting utilities to positive ones makes an optimal assignment worse than another. -/
def OptimumChanges (f : DiagramFile Exact) (d₀ : Diagram Exact) (o : PathVariableOptions Exact) :
    Prop :=
  ∃ d d' c c' values, d₀.after (Diagram.generate ⟨true, true, false, false⟩) = .ok d ∧
    d₀.after (Diagram.generate ⟨true, true, true, false⟩) = .ok d' ∧ d.Normalized ∧
    f.compileWith d o = .ok c ∧ f.compileWith d' o = .ok c' ∧ c.program.IsOptimal values ∧
    ¬ c'.program.IsOptimal values

private theorem optimumChanges_of_checks {decides : Bool} {o : PathVariableOptions Exact}
    (values better : Array Exact) (gain : ℚ) (pos : 0 < gain)
    (plain : (((commuteFile decides).compileWith (commute decides false) o).toOption.any fun c =>
      c.program.isFeasible values 0 &&
        decide (c.program.objective.evaluate values = finite 0)) = true)
    (signed : (((commuteFile decides).compileWith (commute decides true) o).toOption.any fun c =>
      c.program.isFeasible better 0 && (decide (c.program.objective.evaluate values = finite 0) &&
        decide (c.program.objective.evaluate better = finite gain))) = true) :
    OptimumChanges (commuteFile decides) (commuteTables decides) o := by
  obtain ⟨c, run, checks⟩ := exists_eq_ok_of_any _ plain
  obtain ⟨c', run', checks'⟩ := exists_eq_ok_of_any _ signed
  rw [Bool.and_eq_true, decide_eq_true_eq] at checks
  rw [Bool.and_eq_true, Bool.and_eq_true, decide_eq_true_eq, decide_eq_true_eq] at checks'
  obtain ⟨feasible, nothing⟩ := checks
  obtain ⟨feasible', nothing', gains⟩ := checks'
  have nonpos : ∀ p, inRange (commute decides false).states p = true →
      (commute decides false).utility p ≤ 0 := by
    have listed : ∀ p ∈ (Paths.ofStates (commute decides false).states).toList,
        (commute decides false).utility p ≤ 0 := by cases decides <;> decide +kernel
    exact fun p hp => listed p (Paths.mem_toList_ofStates.mpr hp)
  have unshifted : (commute decides false).shift = 0 :=
    (Diagram.generate_shifted (generate_commute decides false) (generate_commute decides true)).1
  refine ⟨_, _, c, c', values, generate_commute decides false, generate_commute decides true,
    normalized_commute decides false, run, run', isOptimal_of_nonpos run rfl rfl
      (normalized_commute decides false) unshifted nonpos feasible nothing, fun optimal => ?_⟩
  obtain ⟨m, e, -, -, -, program⟩ := DiagramFile.compileWith_expected run' rfl
  have direction : c'.program.direction = .maximize := by
    rw [program]
    rfl
  have beaten := optimal.2 better feasible'
  rw [direction, nothing', gains] at beaten
  exact absurd pos (not_lt.mpr ((finite_le _ _).mp beaten))

/-- Who is not to miss the train does best to leave late and cover nothing, but with positive
utilities to leave early.  Without the cut, this is also so where leaving late is forbidden or
leaving early is forced; and without decisions, it is best to cover nothing or everything. -/
theorem optimum_changes_commute :
    OptimumChanges (commuteFile true) (commuteTables true)
        ⟨true, [], ⟨[(1, 1)]⟩, true, 1, some true⟩ ∧
      OptimumChanges (commuteFile true) (commuteTables true)
        ⟨true, [⟨[0], [[1]]⟩], .empty, false, 1, some true⟩ ∧
      OptimumChanges (commuteFile true) (commuteTables true)
        ⟨true, [], ⟨[(0, 0)]⟩, false, 1, some true⟩ ∧
      OptimumChanges (commuteFile false) (commuteTables false)
        ⟨true, [], .empty, false, 1, some true⟩ := by
  refine ⟨?_, ?_, ?_, ?_⟩
  · exact optimumChanges_of_checks #[0, 1, 0] #[1, 0, 1] (1 / 2)
      (by norm_num) (by decide +kernel) (by decide +kernel)
  · exact optimumChanges_of_checks #[0, 1, 0, 0] #[1, 0, 1, 1] 1
      (by norm_num) (by decide +kernel) (by decide +kernel)
  · exact optimumChanges_of_checks #[0, 1, 0, 0] #[1, 0, 1, 1] 1
      (by norm_num) (by decide +kernel) (by decide +kernel)
  · exact optimumChanges_of_checks #[0, 0, 0] #[1, 1, 1] 1
      (by norm_num) (by decide +kernel) (by decide +kernel)

end Influence
