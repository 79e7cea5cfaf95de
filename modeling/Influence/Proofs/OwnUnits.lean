import Influence.Proofs.AdmittedPaths
import Influence.Proofs.Shift
import Influence.Proofs.UtilitySign

/-!
# Values in the diagram's own units

The objective of a program counts shifted and scaled utilities, and the value that is reported takes
shift and scale off again, the shift by means of a second expression over the same variables.  It
is therefore the sum over the path variables of probability, utility and value of the variable
(`value_own_units`), whatever the values are: they need not be feasible, nor zero or one.  Programs
of one diagram that differ in shift and scale alone have the same path variables and report the same
values.
-/

namespace Influence

open Extended

/-! ## What a generated diagram knows of its paths -/

namespace Diagram

/-- A probability that a path has is a number. -/
theorem isFinite_probabilityOf {d : Diagram Exact} (h : Stored d) {p : Path} {w : Exact}
    (hw : d.probabilityOf p = .ok w) : Scalar.isFinite w = true := by
  obtain ⟨factors, run, hw⟩ := except_bind_eq_ok.mp hw
  have finite_factors : ∀ x ∈ factors, Scalar.isFinite x = true := by
    intro x hx
    obtain ⟨j, hj, entry⟩ := exists_of_mem_except_mapM run hx
    split at entry
    case h_1 t ht =>
      obtain ⟨r, rfl, -⟩ := h.probability j hj t ht x (mem_data_of_entry entry)
      rfl
    case h_2 =>
      rw [← except_pure_eq_ok.mp entry]
      rfl
  rw [← except_pure_eq_ok.mp hw, ← map_finite_map_rational finite_factors, product_map_finite]
  rfl

end Diagram

/-! ## The value of a solution -/

section Value

variable {d : Diagram Exact} {z : DecisionVariables} {o : PathVariableOptions Exact}
  {x : PathVariables Exact} {m m' : Program Exact}

/-- Whatever path variables are built for, the probabilities of their paths are known. -/
theorem PathVariables.LaidOut.measured_of_reachable {start : ℕ} (h : LaidOut d z o x start)
    (reachable : d.Reachable) (generated : d.phase = .generated)
    (custom : ∀ f, d.pathUtility = some (.custom f) → ∀ p, Scalar.isFinite (f p) = true) :
    x.Measured d where
  scale := h.scale_eq
  shift := (finite_rational (Diagram.isFinite_shift reachable)).symm
  weight t ht := by
    obtain ⟨ps, -, admitted, -⟩ := h.paths
    have member : t.1 ∈ x.vars.map (·.1) := List.mem_map_of_mem ht
    rw [admitted, List.mem_filter, PathVariables.isAdmitted_iff] at member
    obtain ⟨-, ⟨w, hw, -⟩, -⟩ := member
    have value : d.weight t.1 = w.rational := by
      rw [Diagram.weight, Diagram.pathProbability,
        Diagram.checkPath_eq_ok_iff.mpr ⟨generated, h.inRange ht⟩]
      change outcome (d.probabilityOf t.1) = _
      rw [hw, outcome_ok]
    rw [value, finite_rational (Diagram.isFinite_probabilityOf reachable.valid.stored hw), hw]
  utility t _ u hu := by
    have number := Diagram.isFinite_rawPathUtility reachable.valid.stored custom hu
    rw [Diagram.utility, hu, outcome_ok, finite_rational number]

/-- The value that is reported for an assignment of numbers to the variables of a program is the sum
over the path variables of the probability of the path, its utility and the value of its variable.
The objective is built where these paths have utilities, so in any case if the diagram has a path
utility and tables whose entries words can count.  With another shift and another scale the path
variables and the values are the same. -/
theorem value_own_units (attained : d.Attained)
    (custom : ∀ f, d.pathUtility = some (.custom f) → ∀ p, Scalar.isFinite (f p) = true)
    (run : Succeeds (PathVariables.build d z o) m x m') :
    (∀ t ∈ x.vars, d.pathProbability t.1 = .ok (finite (d.weight t.1))) ∧
      ((∃ e, ExpectedUtility.build d x = .ok e) ↔
        ∀ t ∈ x.vars, d.rawPathUtility t.1 = .ok (finite (d.utility t.1))) ∧
      (d.pathUtility.isSome = true → d.hasCountableTables = true →
        ∃ e, ExpectedUtility.build d x = .ok e) ∧
      ∀ e, ExpectedUtility.build d x = .ok e →
        ∀ s : Solution Exact, (∀ y ∈ s.values, Scalar.isFinite y = true) →
          e.value s = finite
            (x.vars.map fun t => d.weight t.1 * d.utility t.1 * reading s.values t.2).sum ∧
          ∀ shift sign scaleFactor z' n x' n', Diagram.Attained { d with shift, sign } →
            n.vars.size = m.vars.size →
            Succeeds (PathVariables.build { d with shift, sign } z' { o with scaleFactor }) n x'
              n' →
            x'.vars = x.vars ∧
              ∃ e', ExpectedUtility.build { d with shift, sign } x' = .ok e' ∧
                e'.value s = e.value s := by
  obtain ⟨laidOut, -⟩ := PathVariables.succeeds_build_paths run
  have generated : d.phase = .generated := beq_iff_eq.mp (PathVariables.isGenerated_of_build run)
  have measured := laidOut.measured_of_reachable attained.reachable generated custom
  have known : (∃ e, ExpectedUtility.build d x = .ok e) ↔
      ∀ t ∈ x.vars, d.rawPathUtility t.1 = .ok (finite (d.utility t.1)) :=
    ⟨fun ⟨e, built⟩ => ((ExpectedUtility.build_eq_ok_iff measured).mp built).1,
      fun raw => ⟨_, (ExpectedUtility.build_eq_ok_iff measured).mpr ⟨raw, rfl⟩⟩⟩
  refine ⟨fun t ht => ?_, known, fun utility countable => ?_, fun e built s numbers => ?_⟩
  · rw [Diagram.pathProbability,
      Diagram.checkPath_eq_ok_iff.mpr ⟨generated, laidOut.inRange ht⟩]
    exact measured.weight t ht
  · refine known.mpr fun t ht => ?_
    obtain ⟨y, raw⟩ := attained.exists_rawPathUtility Scalar.hasShares_exact generated countable
      utility (laidOut.inRange ht)
    rw [raw, measured.utility t ht y raw]
  · have values (v : ℕ) : s.values.getD v 0 = finite (reading s.values v) := by
      refine (finite_rational ?_).symm
      rw [Array.getD_eq_getD_getElem?]
      cases entry : s.values[v]? with
      | none => rfl
      | some y => exact numbers y (Array.mem_of_getElem? entry)
    have value := ExpectedUtility.value_eq_sum measured built fun t _ => values t.2
    refine ⟨value, fun shift sign scaleFactor z' n x' n' attained' size run' => ?_⟩
    obtain ⟨laidOut', -⟩ := PathVariables.succeeds_build_paths run'
    have measured' := laidOut'.measured_of_reachable attained'.reachable generated custom
    rw [size] at laidOut'
    have shifted : PathVariables.LaidOut { d with shift, sign } z o x m.vars.size := laidOut.shifted
    have vars : x'.vars = x.vars := shifted.vars_eq laidOut' rfl rfl
    have raw : ∀ t ∈ x'.vars, Diagram.rawPathUtility { d with shift, sign } t.1 =
        .ok (finite (Diagram.utility { d with shift, sign } t.1)) := by
      rw [vars]
      exact known.mp ⟨e, built⟩
    have built' := (ExpectedUtility.build_eq_ok_iff measured').mpr ⟨raw, rfl⟩
    refine ⟨vars, _, built', ?_⟩
    rw [value, ExpectedUtility.value_eq_sum measured' built' fun t _ => values t.2, vars]
    rfl

end Value

/-! ## A commute -/

theorem attained_commute (positive : Bool) : (commute true positive).Attained := by
  have assembled : (commuteFile true).assemble.isOk = true := by decide +kernel
  have tables : (commuteTables true).Attained :=
    DiagramFile.attained_of_assemble (except_eq_ok_of_isOk _ assembled)
  exact Diagram.holds_after (fun _ h => h.generate _) tables (generate_commute true positive)

/-- Half of one decision and half of the other, and shares of the paths that fit neither. -/
def halfway : Solution Exact :=
  ⟨#[finite (1 / 2), finite (1 / 2), finite (1 / 3), finite (1 / 4), finite (1 / 5)], 0⟩

/-- For the commute an assignment that no strategy has is worth the shares of its costs, also where
utilities are shifted to positive ones and scaled by three. -/
theorem value_own_units_commute :
    ∃ z m x m' e x' n' e',
      Succeeds (DecisionVariables.build (commute true false) true) .empty z m ∧
      Succeeds (PathVariables.build (commute true false) z ⟨true, [], .empty, true, 1, none⟩) m
        x m' ∧
      ExpectedUtility.build (commute true false) x = .ok e ∧
      e.value halfway = finite (-59 / 120) ∧
      Succeeds (PathVariables.build (commute true true) z
        ⟨true, [], .empty, true, finite 3, none⟩) m x' n' ∧
      ExpectedUtility.build (commute true true) x' = .ok e' ∧
      e'.value halfway = finite (-59 / 120) := by
  have runs : succeedsWith (DecisionVariables.build (commute true false) true) .empty (fun z m =>
      succeedsWith (PathVariables.build (commute true false) z ⟨true, [], .empty, true, 1, none⟩) m
          (fun x _ => decide (x.vars = [([0, 0], 2), ([0, 1], 3), ([1, 0], 4)])) &&
        succeedsWith (PathVariables.build (commute true true) z
          ⟨true, [], .empty, true, finite 3, none⟩) m fun _ _ => true) = true := by
    decide +kernel
  obtain ⟨z, m, decisions, checks⟩ := exists_succeeds runs
  obtain ⟨plain, raised⟩ := Bool.and_eq_true_iff.mp checks
  obtain ⟨x, m', paths, listed⟩ := exists_succeeds plain
  obtain ⟨x', n', paths', -⟩ := exists_succeeds raised
  have additive : (commute true false).pathUtility = some .additive :=
    Diagram.pathUtility_of_isAdditive (by decide +kernel)
  obtain ⟨-, -, exists_built, values⟩ := value_own_units (attained_commute false)
    (fun f custom => by cases additive.symm.trans custom) paths
  obtain ⟨e, built⟩ := exists_built (by rw [additive]; rfl) (by decide +kernel)
  obtain ⟨value, others⟩ := values e built halfway fun y hy => by
    simp only [halfway, List.mem_toArray, List.mem_cons, List.not_mem_nil, or_false] at hy
    rcases hy with rfl | rfl | rfl | rfl | rfl <;> rfl
  obtain ⟨shift, sign, same⟩ := Diagram.generate_resigned (generate_commute true false)
    (generate_commute true true) rfl rfl
  have attained := attained_commute true
  rw [same] at attained paths'
  obtain ⟨-, e', built', equal⟩ := others shift sign (finite 3) z m x' n' attained rfl paths'
  have total : (x.vars.map fun t => (commute true false).weight t.1 *
      (commute true false).utility t.1 * reading halfway.values t.2).sum = -59 / 120 := by
    rw [of_decide_eq_true listed]
    decide +kernel
  rw [total] at value
  rw [← same] at paths' built'
  exact ⟨z, m, x, m', e, x', n', e', decisions, paths, built, value, paths', built',
    equal.trans value⟩

end Influence
