import Influence.Proofs.Building
import Influence.Proofs.PathIteration
import Influence.Proofs.Sound

/-!
# Admitted paths

Whatever the options, building path variables that succeeds gives variables to the admitted paths,
and to each one: those that agree with the forced states, are not improbable and take no forbidden
combination (`mem_paths_iff_admitted`).  What is forbidden counts as a set, for a path is asked
only whether some combination covers it (`build_congr`).  The program grows by the variables, by
one link per path and decision node, by one lower bound per path if it binds, and by the cut if
it is asked for (`admitted_paths_exact`); what was there before stays in front.

The decision variables may be any that have a variable for each path at every decision node.
-/

namespace Influence

variable {α : Type}

/-- In range of a path, a forbidden combination is one of the states of its nodes. -/
theorem ForbiddenPath.covers_eq_false_iff {f : ForbiddenPath} {p : Path}
    (inside : ∀ i ∈ f.nodes, i < p.length) :
    f.covers p = false ↔ (f.nodes.map fun i => p.getD i 0) ∉ f.combinations := by
  have states : f.nodes.mapM (p[·]?) = some (f.nodes.map fun i => p.getD i 0) := by
    generalize f.nodes = nodes at inside
    induction nodes with
    | nil => rfl
    | cons i nodes ih =>
      rcases List.forall_mem_cons.mp inside with ⟨hi, inside⟩
      rw [List.mapM_cons, ih inside, List.getElem?_eq_getElem hi, List.map_cons,
        List.getD_eq_getElem _ _ hi]
      rfl
  unfold covers
  rw [states, ← Bool.not_eq_true, List.contains_iff_mem]

namespace PathVariables

variable [Scalar α] {d : Diagram α} {z : DecisionVariables} {o : PathVariableOptions α}
  {x : PathVariables α} {m m' : Program α}

/-! ## What is forbidden -/

/-- The same forbidden combinations, in any order and any number of times, omit the same paths. -/
theorem omission?_congr {forbidden forbidden' : List ForbiddenPath}
    (same : ∀ f, f ∈ forbidden' ↔ f ∈ forbidden) (p : Path) :
    omission? d forbidden' p = omission? d forbidden p := by
  have any : forbidden'.any (·.covers p) = forbidden.any (·.covers p) := by
    rw [Bool.eq_iff_iff, List.any_eq_true, List.any_eq_true]
    exact exists_congr fun f => and_congr_left fun _ => same f
  unfold omission?
  rw [any]

/-- Building depends on the forbidden combinations as a set. -/
theorem build_congr {forbidden : List ForbiddenPath}
    (same : ∀ f, f ∈ forbidden ↔ f ∈ o.forbidden) :
    build d z { o with forbidden } = build d z o := by
  have step : addUnlessOmitted d z { o with forbidden } = addUnlessOmitted d z o := by
    funext p
    unfold addUnlessOmitted
    rw [omission?_congr same]
    rfl
  unfold build
  rw [step]

/-! ## Who gets a variable -/

/-- The paths with variables, of any diagram over any scalars. -/
theorem LaidOut.mem_paths_iff_admitted {start : ℕ} (h : LaidOut d z o x start)
    (generated : d.phase = .generated)
    (inside : ∀ f ∈ o.forbidden, ∀ i ∈ f.nodes, i < d.states.length) {p : Path} :
    p ∈ x.vars.map (·.1) ↔ inRange d.states p = true ∧
      (∀ i s, o.fixed.get? i = some s → p[i]? = some s) ∧
      (∃ w, d.pathProbability p = .ok w ∧ (w == 0) = false) ∧
      ∀ f ∈ o.forbidden, (f.nodes.map fun i => p.getD i 0) ∉ f.combinations := by
  rcases h.paths with ⟨ps, run, admitted, -⟩
  rw [admitted, List.mem_filter, Paths.mem_toList_withFixed run, and_assoc, isAdmitted_iff]
  refine and_congr_right fun hp => and_congr_right fun _ => ?_
  have probability : d.pathProbability p = d.probabilityOf p := by
    rw [Diagram.pathProbability, Diagram.checkPath_eq_ok_iff.mpr ⟨generated, hp⟩]
    rfl
  rw [probability]
  refine and_congr_right fun _ => forall₂_congr fun f hf => ?_
  exact ForbiddenPath.covers_eq_false_iff fun i hi => (length_of_inRange hp) ▸ inside f hf i hi

/-- The variables are in the order of the paths. -/
theorem LaidOut.pairwise_lt_paths {start : ℕ} (h : LaidOut d z o x start) :
    (x.vars.map (·.1)).Pairwise (· < ·) := by
  rcases h.paths with ⟨ps, run, admitted, -⟩
  rcases Paths.withFixed_eq_ok_iff.mp run with ⟨-, rfl⟩
  rw [admitted, Paths.toList_ofCoordinates]
  exact (Paths.pairwise_lt_all _).filter _

/-! ## How the program grows -/

/-- The constraints of a path: its links, and the lower bound if it binds. -/
theorem LaidOut.pathConstraints_eq {start : ℕ} (h : LaidOut d z o x start) {t : Path × ℕ}
    (ht : t ∈ x.vars) : ∃ zs, d.decision.map (z.variableOn? · t.1) = zs.map some ∧
      pathConstraints d z o t.1 t.2 = zs.map (linkTo t.2) ++
        if bindsBelow d o ∧ d.decision ≠ [] then
          [Program.normalized (linked t.2 zs) .ge (1 - Scalar.ofNat d.decision.length) false]
        else [] := by
  refine ⟨_, h.selects t ht, ?_⟩
  rw [pathConstraints]
  simp only [Bool.and_eq_true, Bool.not_eq_true', List.isEmpty_eq_false_iff]

/-- The constraints of all paths, counted. -/
theorem LaidOut.length_constraints {start : ℕ} (h : LaidOut d z o x start) :
    (x.vars.flatMap fun t => pathConstraints d z o t.1 t.2).length =
      x.vars.length * d.decision.length +
        if bindsBelow d o ∧ d.decision ≠ [] then x.vars.length else 0 := by
  have each : ∀ t ∈ x.vars, (pathConstraints d z o t.1 t.2).length =
      d.decision.length + if bindsBelow d o ∧ d.decision ≠ [] then 1 else 0 := by
    intro t ht
    rcases h.pathConstraints_eq ht with ⟨zs, selects, constraints⟩
    have number := congrArg List.length selects
    rw [List.length_map, List.length_map] at number
    rw [constraints, List.length_append, List.length_map, number]
    split <;> rfl
  rw [List.length_flatMap, List.map_congr_left each, List.map_const',
    List.sum_replicate_nat, Nat.mul_add, mul_ite, Nat.mul_one, Nat.mul_zero]

/-- Only a generated diagram gets path variables. -/
theorem isGenerated_of_build (run : Succeeds (build d z o) m x m') : d.isGenerated = true := by
  by_contra generated
  rw [Bool.not_eq_true] at generated
  unfold build at run
  rw [generated] at run
  exact absurd run not_succeeds_throw

/-- Building path variables, exactly.  With forbidden combinations over nodes of the paths, the
paths with variables are those that agree with the forced states, are not improbable and take no
forbidden combination, each once and in order; the order of the forbidden combinations and
repetitions among them make no difference.  Behind what it had, the program has one share per path
and, path by path, one link per decision node and the lower bound if it binds, and last the cut
if it is asked for. -/
theorem admitted_paths_exact (run : Succeeds (build d z o) m x m')
    (inside : ∀ f ∈ o.forbidden, ∀ i ∈ f.nodes, i < d.states.length) :
    ((x.vars.map (·.1)).Pairwise (· < ·) ∧
      ∀ p, p ∈ x.vars.map (·.1) ↔ inRange d.states p = true ∧
        (∀ i s, o.fixed.get? i = some s → p[i]? = some s) ∧
        (∃ w, d.pathProbability p = .ok w ∧ (w == 0) = false) ∧
        ∀ f ∈ o.forbidden, (f.nodes.map fun i => p.getD i 0) ∉ f.combinations) ∧
    (∀ forbidden, (∀ f, f ∈ forbidden ↔ f ∈ o.forbidden) →
      build d z { o with forbidden } = build d z o) ∧
    (∃ (shares : List (Variable α)) (cuts : List (Constraint α)),
      m.Grows m' shares ((x.vars.flatMap fun t => pathConstraints d z o t.1 t.2) ++ cuts) ∧
      (∀ v ∈ shares, v.IsShare) ∧
      x.vars.map (·.2) = List.range' m.vars.size x.vars.length ∧
      (∀ t ∈ x.vars, ∃ zs, d.decision.map (z.variableOn? · t.1) = zs.map some ∧
        pathConstraints d z o t.1 t.2 = zs.map (linkTo t.2) ++
          if bindsBelow d o ∧ d.decision ≠ [] then
            [Program.normalized (linked t.2 zs) .ge (1 - Scalar.ofNat d.decision.length) false]
          else []) ∧
      if o.probabilityCut then ∃ mass, x.mass d = .ok mass ∧ cuts = [x.cutOf mass false]
      else cuts = []) ∧
    m'.vars.size = m.vars.size + x.vars.length ∧
    m'.constraints.size = m.constraints.size + (x.vars.length * d.decision.length +
      (if bindsBelow d o ∧ d.decision ≠ [] then x.vars.length else 0) +
        if o.probabilityCut then 1 else 0) := by
  have generated : d.phase = .generated := beq_iff_eq.mp (isGenerated_of_build run)
  rcases succeeds_build_paths run with ⟨h, shares, cuts, length, share, grows, cut⟩
  have count : cuts.length = if o.probabilityCut then 1 else 0 := by
    split at cut
    case isTrue asked =>
      rcases cut with ⟨mass, -, rfl⟩
      rw [if_pos asked, List.length_singleton]
    case isFalse plain => rw [cut, if_neg plain, List.length_nil]
  refine ⟨⟨h.pairwise_lt_paths, fun p => h.mem_paths_iff_admitted generated inside⟩,
    fun forbidden same => build_congr same,
    ⟨shares, cuts, grows, share, h.vars, fun t ht => h.pathConstraints_eq ht, cut⟩, ?_, ?_⟩
  · rw [grows.size, length]
  · rw [← Array.length_toList, grows.constraints, List.length_append, Array.length_toList,
      List.length_append, h.length_constraints, count]

/-- Winning is forbidden. -/
def unlucky : PathVariableOptions Exact :=
  ⟨true, [⟨[0, 1], [[1, 1]]⟩], .empty, true, 1, some true⟩

/-- Three of the four paths of the wager have a variable, a link and a lower bound. -/
theorem admitted_paths_exact_wager : (∀ f ∈ unlucky.forbidden, ∀ i ∈ f.nodes,
      i < (wager false).states.length) ∧ ∃ z m x m',
    Succeeds (DecisionVariables.build (wager false) true) .empty z m ∧
    Succeeds (build (wager false) z unlucky) m x m' ∧
    [1, 0] ∈ x.vars.map (·.1) ∧ [1, 1] ∉ x.vars.map (·.1) ∧
    m'.vars.size = m.vars.size + 3 ∧ m'.constraints.size = m.constraints.size + 7 := by
  have inside : ∀ f ∈ unlucky.forbidden, ∀ i ∈ f.nodes, i < (wager false).states.length := by
    decide +kernel
  have runs : succeedsWith (DecisionVariables.build (wager false) true) .empty (fun z m =>
      succeedsWith (build (wager false) z unlucky) m
        fun x _ => decide (x.vars.length = 3)) = true := by
    decide +kernel
  rcases exists_succeeds runs with ⟨z, m, decisions, checks⟩
  rcases exists_succeeds checks with ⟨x, m', paths, three⟩
  rcases admitted_paths_exact paths inside with ⟨⟨-, member⟩, -, -, vars, constraints⟩
  have decides : (wager false).decision.length = 1 := by decide +kernel
  have binds : bindsBelow (wager false) unlucky ∧ (wager false).decision ≠ [] := by decide +kernel
  have cut : unlucky.probabilityCut = true := rfl
  rw [of_decide_eq_true three] at vars constraints
  rw [decides, if_pos binds, if_pos cut] at constraints
  refine ⟨inside, z, m, x, m', decisions, paths, (member _).mpr ⟨by decide +kernel, ?_, ?_, ?_⟩,
    fun listed => ?_, vars, constraints⟩
  · intro i s forced
    cases forced
  · exact exists_eq_ok_of_any (fun w : Exact => !(w == 0)) (by decide +kernel) |>.imp
      fun w hw => ⟨hw.1, by simpa using hw.2⟩
  · decide +kernel
  · obtain ⟨-, -, -, free⟩ := (member _).mp listed
    exact free _ (List.mem_singleton.mpr rfl) (by decide)

end PathVariables

end Influence
