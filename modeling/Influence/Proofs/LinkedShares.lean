import Influence.Proofs.ForbiddenPaths

/-!
# What the linking lower bound settles

Links hold a path variable below the decision variables that its path selects, and the linking
lower bound holds it above one where all of them are taken.  Together they leave a path variable no
choice: in a feasible assignment it is one if its path takes what was decided at every node, and
zero if it does not (`pathVariable_eq_of_bound`).  Neither the cut nor the probabilities have a
part in this.

The bound is a constraint on decisions, and where there are none it is not added: without a cut the
path variables are then free (`pathVariable_free_coin`).
-/

namespace Influence

open Extended Program

open DecisionVariables (strategyOf)

section Compiled

variable {f : DiagramFile Exact} {d : Diagram Exact} {o : PathVariableOptions Exact}
  {c : Compiled Exact}

/-- What is feasible for a compiled program is linked, with or without a cut. -/
theorem DiagramFile.linked_of_isFeasible (run : f.compileWith d o = .ok c) (arranged : d.Arranged)
    (small : c.program.vars.size < Word.count64) {values : Array Exact}
    (feasible : c.program.isFeasible values 0 = true) :
    ∃ m, Encoding d o f.model.lazyProbabilityCut c.decisions c.paths m ∧
      c.decisions.vars.length < Word.count64 ∧ IsAssignment c.decisions c.paths values ∧
      IsLinked d o c.decisions c.paths 0 (reading values) := by
  rcases fits_of_isFeasible run small feasible with ⟨m, enc, small, size, fits⟩
  exact ⟨m, enc, small, enc.linked_of_fits arranged small size fits⟩

/-- The bound is in force where it is asked for, or by default where no sign is claimed. -/
theorem PathVariables.bindsBelow_of_asked
    (asked : o.lowerBound = some true ∨ o.lowerBound = none ∧ d.sign = .unrestricted) :
    bindsBelow d o = true := by
  unfold bindsBelow
  rcases asked with on | ⟨unset, sign⟩
  · rw [on]
    rfl
  · rw [unset, sign]
    rfl

/-- All selected variables are taken exactly if there is one for every decision node, and it is
taken. -/
theorem PathVariables.LaidOut.selected_iff {z : DecisionVariables} {x : PathVariables Exact}
    {start : ℕ} (h : PathVariables.LaidOut d z o x start) {t : Path × ℕ} (ht : t ∈ x.vars)
    {taken : ℕ → Prop} : (∀ v ∈ selectedAt z t.1 d.decision, taken v) ↔
      ∀ i ∈ d.decision, ∃ v, z.variableOn? i t.1 = some v ∧ taken v := by
  have selects := h.selects t ht
  constructor
  · intro all i hi
    have member : z.variableOn? i t.1 ∈ d.decision.map (z.variableOn? · t.1) :=
      List.mem_map_of_mem hi
    rw [selects] at member
    rcases List.mem_map.mp member with ⟨v, hv, found⟩
    exact ⟨v, found.symm, all v hv⟩
  · intro each v hv
    rcases List.mem_filterMap.mp hv with ⟨i, hi, found⟩
    rcases each i hi with ⟨w, hw, holds⟩
    rw [found, Option.some.injEq] at hw
    rwa [hw]

/-- Where the linking lower bound is in force and there is something to decide, a path variable of a
feasible assignment is one if the path selects a variable that is one at every decision node, and
zero otherwise.  Variables are numbered by machine words. -/
theorem pathVariable_eq_of_bound (run : f.compileWith d o = .ok c) (reachable : d.Reachable)
    (generated : d.phase = .generated)
    (asked : o.lowerBound = some true ∨ o.lowerBound = none ∧ d.sign = .unrestricted)
    (decides : d.decision ≠ []) (small : c.program.vars.size < Word.count64)
    {s : Solution Exact} (feasible : c.program.isFeasible s.values 0 = true) :
    ∀ t ∈ c.paths.vars, s.value t.2 =
      if ∀ i ∈ d.decision, ∃ v, c.decisions.variableOn? i t.1 = some v ∧ s.value v = 1
      then 1 else 0 := by
  have arranged : d.Arranged := reachable.valid.arranged (by rw [generated]; decide)
  rcases DiagramFile.linked_of_isFeasible run arranged small feasible with
    ⟨m, enc, small, assignment, linked⟩
  intro t ht
  have hp := enc.paths.inRange ht
  have bound : (PathVariables.bindsBelow d o && !d.decision.isEmpty) = true := by
    rw [PathVariables.bindsBelow_of_asked asked, Bool.true_and, Bool.not_eq_true',
      List.isEmpty_eq_false_iff]
    exact decides
  have share : s.value t.2 = finite (reading s.values t.2) :=
    assignment.isFinite t.2 (enc.paths.var_mem ht).2
  have bit {v : ℕ} (hv : v ∈ c.decisions.vars) : s.value v = finite (reading s.values v) :=
    assignment.isFinite v ((enc.mem_vars_lt hv).trans_le (Nat.le_add_right _ _))
  have follows : (strategyOf c.decisions (reading s.values)).Follows d t.1 ↔
      ∀ i ∈ d.decision, ∃ v, c.decisions.variableOn? i t.1 = some v ∧ s.value v = 1 := by
    rw [(linked.isChoice assignment.bits).follows_strategyOf_iff enc.decisions arranged small hp,
      ← enc.paths.selected_iff ht]
    refine forall₂_congr fun v hv => ?_
    rw [bit (enc.selectedAt_subset arranged small hp v hv), one_eq_finite, finite.injEq]
  rw [share, linked.share_eq enc arranged small assignment.bits bound ht (assignment.shares t ht),
    ← if_congr follows rfl rfl]
  split <;> rfl

/-- The wager without a cut: the paths of the bet are one, and those of no bet zero. -/
theorem pathVariable_eq_of_bound_wager :
    ∃ c : Compiled Exact, (wagerFile false .default).compileWith (wager false)
        ⟨true, [], .empty, false, 1, some true⟩ = .ok c ∧
      c.program.isFeasible #[0, 1, 0, 0, 1, 1] 0 = true ∧
      ∀ t ∈ c.paths.vars, (⟨#[0, 1, 0, 0, 1, 1], 0⟩ : Solution Exact).value t.2 =
        if ∀ i ∈ (wager false).decision, ∃ v, c.decisions.variableOn? i t.1 = some v ∧
          (⟨#[0, 1, 0, 0, 1, 1], 0⟩ : Solution Exact).value v = 1 then 1 else 0 := by
  rcases exists_eq_ok_of_any
    (x := (wagerFile false .default).compileWith (wager false)
      ⟨true, [], .empty, false, 1, some true⟩)
    (fun c => c.program.vars.size == 6 && c.program.isFeasible #[0, 1, 0, 0, 1, 1] 0)
    (by decide +kernel) with ⟨c, run, checks⟩
  rw [Bool.and_eq_true, beq_iff_eq] at checks
  rcases checks with ⟨size, feasible⟩
  have normalized := normalized_wager false
  exact ⟨c, run, feasible, pathVariable_eq_of_bound run normalized.reachable normalized.generated
    (.inl rfl) (by decide +kernel) (by rw [size]; decide) (s := ⟨#[0, 1, 0, 0, 1, 1], 0⟩) feasible⟩

end Compiled

/-- A fair coin on which nothing depends. -/
def coinFile : DiagramFile Exact where
  schemaVersion := schemaVersion
  description := none
  nodes := [⟨"coin", .chance, [], ["tails", "heads"]⟩]
  probabilities := []
  utilities := []
  generate := ⟨⟨true, true, false, false⟩, true⟩
  model := .default

/-- The diagram of the coin. -/
def coin : Diagram Exact := coinFile.build.toOption.getD (.empty true)

theorem normalized_coin : coin.Normalized := by
  have built : coinFile.build.isOk = true := by decide +kernel
  refine .of_isAdditive (DiagramFile.reachable_of_build (except_eq_ok_of_isOk _ built)) ?_ ?_ ?_ <;>
    decide +kernel

/-- With nothing to decide the bound is not added although it is asked for, and without a cut all
path variables may be zero. -/
theorem pathVariable_free_coin : coin.Normalized ∧ coin.decision = [] ∧
    ∃ c : Compiled Exact,
      coinFile.compileWith coin ⟨true, [], .empty, false, 1, some true⟩ = .ok c ∧
      c.program.isFeasible #[0, 0] 0 = true ∧
      ∃ t ∈ c.paths.vars, (⟨#[0, 0], 0⟩ : Solution Exact).value t.2 ≠
        if ∀ i ∈ coin.decision, ∃ v, c.decisions.variableOn? i t.1 = some v ∧
          (⟨#[0, 0], 0⟩ : Solution Exact).value v = 1 then 1 else 0 := by
  have nothing : coin.decision = [] := by decide +kernel
  rcases exists_eq_ok_of_any
    (x := coinFile.compileWith coin ⟨true, [], .empty, false, 1, some true⟩)
    (fun c => c.program.isFeasible #[0, 0] 0 && decide (([0], 0) ∈ c.paths.vars))
    (by decide +kernel) with ⟨c, run, checks⟩
  rw [Bool.and_eq_true, decide_eq_true_eq] at checks
  rcases checks with ⟨feasible, listed⟩
  refine ⟨normalized_coin, nothing, c, run, feasible, _, listed, ?_⟩
  rw [nothing, if_pos fun i hi => (List.not_mem_nil hi).elim]
  decide

end Influence
