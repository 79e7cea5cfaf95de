import Influence.Proofs.Building
import Influence.Proofs.Feasible
import Influence.Proofs.TotalProbability
import Influence.Study.Compiled

/-!
# The layout of a compiled program

A compiled program starts with the bits of the decision variables, in blocks of one per
information state, and goes on with the path variables; its constraints are the one-hot
equations of the blocks, the constraints of each path variable, and the cuts (`Encoding`).  What
an objective needs comes behind them.
-/

namespace Influence

open Extended Program

/-- The variables and constraints of a program before those of its objective. -/
structure Encoding {α : Type} [Scalar α] (d : Diagram α) (o : PathVariableOptions α)
    (isLazy : Bool) (z : DecisionVariables) (x : PathVariables α) (m : Program α) : Prop where
  decisions : DecisionVariables.LaidOut d z 0
  paths : PathVariables.LaidOut d z o x z.vars.length
  vars : ∃ bits shares, m.vars.toList = bits ++ shares ∧
    bits.length = z.vars.length ∧ (∀ v ∈ bits, v.IsBit) ∧
    shares.length = x.vars.length ∧ ∀ v ∈ shares, v.IsShare
  constraints : ∃ cuts, m.constraints.toList =
      z.blocks.map oneHot ++
        (x.vars.flatMap fun t => PathVariables.pathConstraints d z o t.1 t.2) ++ cuts ∧
    (∀ c ∈ cuts, ∃ mass isLazy, x.mass d = .ok mass ∧ c = x.cutOf mass isLazy) ∧
    (o.probabilityCut = true ∨ isLazy = true ↔ cuts ≠ [])

section Added

variable {α : Type} [Scalar α] {d : Diagram α} {o : PathVariableOptions α} {z : DecisionVariables}
  {x : PathVariables α} {m m' : Program α}

/-- What path variables add to a program: themselves, their constraints, and the cuts. -/
structure PathVariables.Added (d : Diagram α) (z : DecisionVariables) (o : PathVariableOptions α)
    (isLazy : Bool) (x : PathVariables α) (m m' : Program α) : Prop where
  laidOut : PathVariables.LaidOut d z o x m.vars.size
  grown : ∃ (vs : List (Variable α)) (cuts : List (Constraint α)), vs.length = x.vars.length ∧
    (∀ v ∈ vs, v.IsShare) ∧
    Grows m m' vs
      ((x.vars.flatMap fun t => PathVariables.pathConstraints d z o t.1 t.2) ++ cuts) ∧
    (∀ c ∈ cuts, ∃ mass isLazy, x.mass d = .ok mass ∧ c = x.cutOf mass isLazy) ∧
    (o.probabilityCut = true ∨ isLazy = true ↔ cuts ≠ [])

theorem PathVariables.added_of_build (h : Succeeds (PathVariables.build d z o) m x m') :
    PathVariables.Added d z o false x m m' := by
  obtain ⟨laidOut, vs, cuts, length, shares, grows, eager⟩ :=
    PathVariables.succeeds_build_paths h
  refine ⟨laidOut, vs, cuts, length, shares, grows, ?_⟩
  split at eager
  case isTrue on =>
    obtain ⟨mass, hmass, rfl⟩ := eager
    exact ⟨fun c hc => ⟨mass, false, hmass, List.mem_singleton.mp hc⟩,
      iff_of_true (.inl on) (List.cons_ne_nil _ _)⟩
  case isFalse off =>
    subst eager
    exact ⟨fun c hc => (List.not_mem_nil hc).elim, iff_of_false (by simpa using off) (by simp)⟩

/-- A program with its decision and path variables is laid out. -/
theorem PathVariables.Added.encoding {m₁ : Program α} {isLazy names : Bool}
    (h : PathVariables.Added d z o isLazy x m₁ m)
    (decisions : Succeeds (DecisionVariables.build d names) .empty z m₁) :
    Encoding d o isLazy z x m := by
  obtain ⟨laidOut, bits, bits_length, areBits, grows⟩ :=
    DecisionVariables.succeeds_build_decisions decisions
  obtain ⟨laidOut', shares, cuts, shares_length, areShares, grows', cuts_eq, cuts_ne⟩ := h
  have both := grows.trans grows'
  refine ⟨laidOut, ?_, ⟨bits, shares, both.vars, bits_length, areBits, shares_length,
    areShares⟩, ⟨cuts, ?_, cuts_eq, cuts_ne⟩⟩
  · rw [grows.size, bits_length] at laidOut'
    simpa [Program.empty] using laidOut'
  · rw [both.constraints, List.append_assoc]
    rfl

end Added

section Names

variable {α : Type} [Scalar α] {d : Diagram α} {o : PathVariableOptions α} {isLazy : Bool}
  {z : DecisionVariables} {x : PathVariables α} {m : Program α}

theorem PathVariables.LaidOut.var_mem {start : ℕ} (h : PathVariables.LaidOut d z o x start)
    {t : Path × ℕ} (ht : t ∈ x.vars) : start ≤ t.2 ∧ t.2 < start + x.vars.length := by
  have member : t.2 ∈ x.vars.map (·.2) := List.mem_map_of_mem ht
  rw [h.vars, List.mem_range'_1] at member
  exact member

/-- The mass names path variables only. -/
theorem PathVariables.mem_terms_of_mass {mass : LinearExpr α} (h : x.mass d = .ok mass)
    {t : ℕ × α} (ht : t ∈ mass.terms) : t.1 ∈ x.vars.map (·.2) := by
  obtain ⟨terms, run, made⟩ := except_bind_eq_ok.mp h
  obtain rfl := except_pure_eq_ok.mp made
  obtain ⟨e, he, ht⟩ := List.mem_flatMap.mp ht
  obtain ⟨u, hu, made⟩ := exists_of_mem_except_mapM run he
  obtain ⟨probability, -, made⟩ := except_bind_eq_ok.mp made
  obtain rfl := except_pure_eq_ok.mp made
  rw [List.mem_singleton.mp ht]
  exact List.mem_map_of_mem hu

namespace Encoding

theorem size_eq (h : Encoding d o isLazy z x m) :
    m.vars.size = z.vars.length + x.vars.length := by
  obtain ⟨bits, shares, vars, bits_length, -, shares_length, -⟩ := h.vars
  rw [← Array.length_toList, vars, List.length_append, bits_length, shares_length]

theorem mem_vars_lt (h : Encoding d o isLazy z x m) {v : ℕ} (hv : v ∈ z.vars) :
    v < z.vars.length := by
  rw [h.decisions.vars, List.mem_range'_1, Nat.zero_add] at hv
  exact hv.2

/-! ## Kinds of variables -/

theorem isBinary_iff (h : Encoding d o isLazy z x m) {v : ℕ} :
    m.isBinary v = true ↔ v < z.vars.length := by
  obtain ⟨bits, shares, vars, bits_length, areBits, -, areShares⟩ := h.vars
  rw [isBinary, ← Array.getElem?_toList, vars, ← bits_length]
  by_cases low : v < bits.length
  · rw [List.getElem?_append_left low, List.getElem?_eq_getElem low]
    refine iff_of_true ?_ low
    rw [Option.any_some, (areBits _ (List.getElem_mem low)).kind]
    rfl
  · rw [List.getElem?_append_right (Nat.le_of_not_lt low)]
    refine iff_of_false ?_ low
    cases hs : shares[v - bits.length]? with
    | none => exact Bool.false_ne_true
    | some s =>
      rw [Option.any_some, (areShares s (List.mem_of_getElem? hs)).kind]
      decide

theorem isContinuous_iff (h : Encoding d o isLazy z x m) {v : ℕ} :
    m.isContinuous v = true ↔ z.vars.length ≤ v ∧ v < z.vars.length + x.vars.length := by
  obtain ⟨bits, shares, vars, bits_length, areBits, shares_length, areShares⟩ := h.vars
  rw [isContinuous, ← Array.getElem?_toList, vars, ← bits_length, ← shares_length]
  by_cases low : v < bits.length
  · rw [List.getElem?_append_left low, List.getElem?_eq_getElem low]
    refine iff_of_false ?_ fun high => absurd low (not_lt.mpr high.1)
    rw [Option.any_some, (areBits _ (List.getElem_mem low)).kind]
    decide
  · rw [List.getElem?_append_right (Nat.le_of_not_lt low)]
    cases hs : shares[v - bits.length]? with
    | none =>
      refine iff_of_false Bool.false_ne_true fun high => ?_
      have outside := List.getElem?_eq_none_iff.mp hs
      omega
    | some s =>
      have inside := (List.getElem?_eq_some_iff.mp hs).1
      refine iff_of_true ?_ ⟨Nat.le_of_not_lt low, by omega⟩
      rw [Option.any_some, (areShares s (List.mem_of_getElem? hs)).kind]
      rfl

theorem isShare_of_isContinuous (h : Encoding d o isLazy z x m) {v : ℕ} {w : Variable α}
    (hw : m.vars[v]? = some w) (continuous : m.isContinuous v = true) : w.IsShare := by
  have low := (h.isContinuous_iff.mp continuous).1
  obtain ⟨bits, shares, vars, bits_length, -, -, areShares⟩ := h.vars
  rw [← Array.getElem?_toList, vars, List.getElem?_append_right (bits_length ▸ low)] at hw
  exact areShares w (List.mem_of_getElem? hw)

theorem mem_vars_iff (h : Encoding d o isLazy z x m) {v : ℕ} :
    v ∈ z.vars ↔ v < z.vars.length := by
  rw [h.decisions.vars, List.mem_range'_1, Nat.zero_add, ← h.decisions.vars]
  exact and_iff_right (Nat.zero_le v)

end Encoding

end Names

namespace DiagramFile

variable {α : Type} [Scalar α]

theorem added_of_addPaths {f : DiagramFile α} {d : Diagram α} {o : PathVariableOptions α}
    {z : DecisionVariables} {x : PathVariables α} {m m' : Program α}
    (h : Succeeds (f.addPaths d o z) m x m') :
    PathVariables.Added d z o f.model.lazyProbabilityCut x m m' := by
  obtain ⟨x', t, built, h⟩ := succeeds_bind.mp h
  obtain ⟨laidOut, vs, cuts, length, shares, grows, eager, nonempty⟩ :=
    PathVariables.added_of_build built
  by_cases asked : f.model.lazyProbabilityCut = true
  · rw [if_pos asked] at h
    obtain ⟨k, u, added, h⟩ := succeeds_bind.mp h
    obtain ⟨rfl, rfl⟩ := succeeds_pure.mp h
    obtain ⟨mass, hmass, grows'⟩ := PathVariables.succeeds_addLazyCut added
    have both := grows.trans grows'
    rw [List.append_nil, List.append_assoc] at both
    refine ⟨laidOut, vs, _, length, shares, both, List.forall_mem_append.mpr ⟨eager, ?_⟩,
      iff_of_true (.inr asked) (by simp)⟩
    exact fun c hc => ⟨mass, true, hmass, List.mem_singleton.mp hc⟩
  · rw [if_neg asked] at h
    obtain ⟨rfl, rfl⟩ := succeeds_pure.mp h
    refine ⟨laidOut, vs, cuts, length, shares, grows, eager, ?_⟩
    rw [← nonempty, or_iff_left asked, or_iff_left Bool.false_ne_true]

/-- The program of a file with its decision and path variables is laid out. -/
theorem encoding_of_succeeds {f : DiagramFile α} {d : Diagram α} {o : PathVariableOptions α}
    {z : DecisionVariables} {x : PathVariables α} {m₁ m : Program α}
    (decisions : Succeeds (DecisionVariables.build d o.names) .empty z m₁)
    (paths : Succeeds (f.addPaths d o z) m₁ x m) :
    Encoding d o f.model.lazyProbabilityCut z x m :=
  (added_of_addPaths paths).encoding decisions

/-- The runs that a compiled program comes from. -/
theorem compileWith_runs {f : DiagramFile α} {d : Diagram α} {o : PathVariableOptions α}
    {c : Compiled α} (h : f.compileWith d o = .ok c) :
    ∃ m₁ m₀ m, Succeeds (DecisionVariables.build d o.names) .empty c.decisions m₁ ∧
      Succeeds (f.addPaths d o c.decisions) m₁ c.paths m₀ ∧
      Succeeds (f.addObjective d c.paths) m₀ c.objective m ∧
      c.program = m.withObjective (.ofFlag f.model.objective.maximize) c.objective.expr ∧
      c.maximize = f.model.objective.maximize := by
  unfold compileWith at h
  split at h
  case h_1 => cases h
  case h_2 z x objective m run =>
    obtain ⟨z', m₁, decisions, run⟩ := succeeds_bind.mp run
    obtain ⟨x', m₀, paths, run⟩ := succeeds_bind.mp run
    obtain ⟨objective', m', added, run⟩ := succeeds_bind.mp run
    obtain ⟨results, rfl⟩ := succeeds_pure.mp run
    obtain ⟨rfl, rfl, rfl⟩ : z' = z ∧ x' = x ∧ objective' = objective := by simpa using results
    rw [← Except.ok.inj h]
    exact ⟨m₁, m₀, m', decisions, paths, added, rfl, rfl⟩

/-- What a compiled program is made of. -/
theorem compileWith_eq_ok {f : DiagramFile α} {d : Diagram α} {o : PathVariableOptions α}
    {c : Compiled α} (h : f.compileWith d o = .ok c) :
    ∃ m₀ m, Encoding d o f.model.lazyProbabilityCut c.decisions c.paths m₀ ∧
      Succeeds (f.addObjective d c.paths) m₀ c.objective m ∧
      c.program = m.withObjective (.ofFlag f.model.objective.maximize) c.objective.expr ∧
      c.maximize = f.model.objective.maximize := by
  obtain ⟨m₁, m₀, m, decisions, paths, added, program⟩ := compileWith_runs h
  exact ⟨m₀, m, encoding_of_succeeds decisions paths, added, program⟩

/-- The runs that a compiled program for the expected utility comes from. -/
theorem compileWith_expected_runs {f : DiagramFile α} {d : Diagram α} {o : PathVariableOptions α}
    {c : Compiled α} (h : f.compileWith d o = .ok c)
    (kind : f.model.objective.kind = .expectedValue) :
    ∃ m₁ m e, Succeeds (DecisionVariables.build d o.names) .empty c.decisions m₁ ∧
      Succeeds (f.addPaths d o c.decisions) m₁ c.paths m ∧
      ExpectedUtility.build d c.paths = .ok e ∧ c.objective = .expected e ∧
      c.program = m.withObjective (.ofFlag f.model.objective.maximize) e.expr := by
  obtain ⟨m₁, m₀, m, decisions, paths, added, program, -⟩ := compileWith_runs h
  unfold addObjective at added
  rw [kind] at added
  obtain ⟨e, built, added⟩ := succeeds_lift_bind.mp added
  obtain ⟨objective, rfl⟩ := succeeds_pure.mp added
  rw [← objective] at program
  exact ⟨m₁, m₀, e, decisions, paths, built, objective.symm, program⟩

/-- What a compiled program for the expected utility is made of. -/
theorem compileWith_expected {f : DiagramFile α} {d : Diagram α} {o : PathVariableOptions α}
    {c : Compiled α} (h : f.compileWith d o = .ok c)
    (kind : f.model.objective.kind = .expectedValue) :
    ∃ m e, Encoding d o f.model.lazyProbabilityCut c.decisions c.paths m ∧
      ExpectedUtility.build d c.paths = .ok e ∧ c.objective = .expected e ∧
      c.program = m.withObjective (.ofFlag f.model.objective.maximize) e.expr := by
  obtain ⟨m₁, m, e, decisions, paths, built⟩ := compileWith_expected_runs h kind
  exact ⟨m, e, encoding_of_succeeds decisions paths, built⟩

end DiagramFile

end Influence
