import Influence.Proofs.Candidates
import Influence.Proofs.ForbiddenPaths
import Influence.Proofs.LazyRows

/-!
# The lazy probability cut

The cut is added at once, with the path variables, or as a lazy constraint behind them.  Either way
it is the next constraint (`DiagramFile.program_eager`, `DiagramFile.program_lazy`), and nothing
that an objective adds depends on whether it is lazy (`Program.IgnoresMark`).  So the two programs
differ in the mark of one constraint, and as that constraint names no bits they have the same
answers (`DiagramFile.lazy_cut_equivalent`).
-/

namespace Influence

variable {α : Type}

namespace Program

/-! ## Actions that do not see marks -/

/-- A constraint behind the one that is made lazy. -/
theorem withConstraint_withLazy {m : Program α} {k : ℕ} (inside : k < m.constraints.size)
    (c : Constraint α) :
    (m.withLazy k).withConstraint c = (m.withConstraint c).withLazy k := by
  have constraints : ((m.withLazy k).withConstraint c).constraints =
      ((m.withConstraint c).withLazy k).constraints := by
    refine Array.ext_getElem? fun i => ?_
    rw [getElem?_withLazy, withConstraint, withConstraint, Array.getElem?_push,
      Array.getElem?_push, getElem?_withLazy, size_withLazy]
    by_cases last : i = m.constraints.size
    · rw [if_pos last, if_pos last, Option.map_some, if_neg (by omega)]
    · rw [if_neg last, if_neg last]
  exact congrArg (fun cs => { m with constraints := cs }) constraints

/-- The action goes on as it would if a constraint that is there is made lazy, and leaves the
constraint there. -/
def IgnoresMark {β : Type} (k : ℕ) (x : ProgramM α β) : Prop :=
  ∀ m, k < m.constraints.size → k < (x.run.run m).2.constraints.size ∧
    x.run.run (m.withLazy k) = ((x.run.run m).1, (x.run.run m).2.withLazy k)

namespace IgnoresMark

variable {β γ : Type} {k : ℕ} {x : ProgramM α β} {f : β → ProgramM α γ}

/-- An action that leaves the program alone. -/
theorem of_unchanged {r : Except (ProgramError α) β} (h : ∀ m, x.run.run m = (r, m)) :
    IgnoresMark k x := by
  intro m inside
  rw [h, h]
  exact ⟨inside, rfl⟩

theorem pure (b : β) : IgnoresMark k (pure b : ProgramM α β) := of_unchanged fun _ => rfl

theorem throw (e : ProgramError α) : IgnoresMark k (throw e : ProgramM α β) :=
  of_unchanged fun _ => rfl

theorem bind (hx : IgnoresMark k x) (hf : ∀ b, IgnoresMark k (f b)) : IgnoresMark k (x >>= f) := by
  intro m inside
  obtain ⟨kept, run⟩ := hx m inside
  rw [run_bind, run_bind, run]
  rcases result : x.run.run m with ⟨e | b, t⟩
  · rw [result] at kept
    exact ⟨kept, rfl⟩
  · rw [result] at kept
    exact hf b t kept

/-- A check before anything else. -/
theorem check {c : Prop} [Decidable c] {e : ProgramError α} {g : PUnit → ProgramM α β}
    (hg : IgnoresMark k (g ⟨⟩)) :
    IgnoresMark k (if c then MonadExcept.throw e >>= g else g ⟨⟩) := by
  split
  case isTrue => exact (throw e).bind fun _ => hg
  case isFalse => exact hg

theorem lift (y : Except (DiagramError α) β) : IgnoresMark k (liftM y : ProgramM α β) := by
  cases y with
  | ok b => exact pure b
  | error e => exact throw (.diagram e)

theorem mapM {bs : List β} {g : β → ProgramM α γ} (h : ∀ b, IgnoresMark k (g b)) :
    IgnoresMark k (bs.mapM g) := by
  induction bs with
  | nil => exact pure []
  | cons b bs ih =>
    rw [List.mapM_cons]
    exact (h b).bind fun _ => ih.bind fun _ => pure _

theorem addVariable (v : Variable α) : IgnoresMark k (addVariable v) := by
  -- Whether the name is taken is decided by the variables.
  have run (m : Program α) : (Program.addVariable v).run.run m =
      if (v.name.bind m.find?).isSome then
        (.error (.duplicateVariable (v.name.getD "")), m)
      else (.ok m.vars.size, { m with vars := m.vars.push v }) := by
    unfold Program.addVariable
    cases v.name with
    | none => rfl
    | some name =>
      change StateT.run (ExceptT.run (if (m.find? name).isSome = true then _ else _)) m =
        if (m.find? name).isSome = true then _ else _
      split <;> rfl
  intro m inside
  rw [run, run]
  change _ ∧ (if (v.name.bind m.find?).isSome then _ else _) = _
  split
  · exact ⟨inside, rfl⟩
  · exact ⟨inside, rfl⟩

theorem constrain [Scalar α] (expr : LinearExpr α) (sense : Sense) (rhs : α) (isLazy : Bool) :
    IgnoresMark k (constrain expr sense rhs isLazy) := by
  intro m inside
  set c := normalized expr sense rhs isLazy with made
  have run (m : Program α) : (Program.constrain expr sense rhs isLazy).run.run m =
      (.ok m.constraints.size, m.withConstraint c) := rfl
  rw [run, run, size_withLazy, withConstraint_withLazy inside]
  refine ⟨?_, rfl⟩
  rw [withConstraint, Array.size_push]
  exact Nat.lt_succ_of_lt inside

end IgnoresMark

end Program

open Program

variable [Scalar α] {d : Diagram α} {k : ℕ}

/-! ## Objectives -/

theorem ignoresMark_addOutcome (x : PathVariables α) (bigM epsilon : α) (eta i : ℕ)
    (o : TailUtility.Outcome α) :
    IgnoresMark k (TailUtility.addOutcome x bigM epsilon eta i o) := by
  unfold TailUtility.addOutcome
  have add (expr : LinearExpr α) (sense : Sense) (rhs : α) : IgnoresMark k (do
      let _ ← Program.constrain expr sense rhs false
      (pure () : ProgramM α Unit)) := (IgnoresMark.constrain _ _ _ _).bind fun _ => .pure _
  refine (IgnoresMark.addVariable _).bind fun lambda => (IgnoresMark.addVariable _).bind
    fun lambdaBar => (IgnoresMark.addVariable _).bind fun rho => (IgnoresMark.addVariable _).bind
      fun rhoBar => ?_
  refine (add _ _ _).bind fun _ => (add _ _ _).bind fun _ => (add _ _ _).bind fun _ => ?_
  refine (add _ _ _).bind fun _ => (add _ _ _).bind fun _ => (add _ _ _).bind fun _ => ?_
  refine (add _ _ _).bind fun _ => (add _ _ _).bind fun _ => (add _ _ _).bind fun _ => ?_
  exact .pure rhoBar

theorem ignoresMark_build_tail (x : PathVariables α) (alpha : α) :
    IgnoresMark k (TailUtility.build d x alpha) := by
  have spread (outcomes : List (TailUtility.Outcome α)) (s : TailUtility.Spread α) :
      IgnoresMark k (TailUtility.buildOver d x alpha outcomes s) := by
    unfold TailUtility.buildOver
    split
    case isTrue => exact .pure _
    case isFalse =>
      refine (IgnoresMark.addVariable _).bind fun eta => (IgnoresMark.mapM fun e => ?_).bind
        fun tail => (IgnoresMark.constrain _ _ _ _).bind fun _ => .pure _
      exact ignoresMark_addOutcome x _ _ _ _ _
  unfold TailUtility.build
  refine .check ((IgnoresMark.lift _).bind fun outcomes => ?_)
  split
  case h_1 => exact .throw _
  case h_2 => exact spread _ _

theorem ignoresMark_addObjective (f : DiagramFile α) (x : PathVariables α) :
    IgnoresMark k (f.addObjective d x) := by
  unfold DiagramFile.addObjective
  split
  case h_1 => exact (IgnoresMark.lift _).bind fun _ => .pure _
  case h_2 =>
    split
    case h_1 => exact .throw _
    case h_2 alpha _ => exact (ignoresMark_build_tail x alpha).bind fun _ => .pure _

/-! ## The next constraint -/

namespace PathVariables

/-- Adds the cut. -/
def addCut (d : Diagram α) (x : PathVariables α) (isLazy : Bool) : ProgramM α ℕ := do
  let mass ← (x.mass d : Except (DiagramError α) _)
  Program.constrain mass x.cutSense x.scale isLazy

theorem run_addCut (x : PathVariables α) (isLazy : Bool) (m : Program α) :
    (addCut d x isLazy).run.run m = match x.mass d with
      | .error e => (.error (.diagram e), m)
      | .ok mass => (.ok m.constraints.size, m.withConstraint (x.cutOf mass isLazy)) := by
  unfold addCut
  cases x.mass d <;> rfl

/-- The lazy cut is the eager one, made lazy. -/
theorem withConstraint_cutOf (x : PathVariables α) (mass : LinearExpr α) (m : Program α) :
    m.withConstraint (x.cutOf mass true) =
      (m.withConstraint (x.cutOf mass false)).withLazy m.constraints.size := by
  have constraints : (m.withConstraint (x.cutOf mass true)).constraints =
      ((m.withConstraint (x.cutOf mass false)).withLazy m.constraints.size).constraints := by
    refine Array.ext_getElem? fun i => ?_
    rw [getElem?_withLazy, withConstraint, withConstraint, Array.getElem?_push,
      Array.getElem?_push]
    by_cases last : i = m.constraints.size
    · rw [if_pos last, if_pos last, Option.map_some, if_pos last.symm]
      rfl
    · simp [last, Ne.symm last]
  exact congrArg (fun cs => { m with constraints := cs }) constraints

/-- An eager cut is added behind the path variables, which are made as they are without it. -/
theorem build_eager (z : DecisionVariables) (o : PathVariableOptions α) :
    build d z { o with probabilityCut := true } =
      build d z { o with probabilityCut := false } >>= fun x =>
        addCut d x false >>= fun cut => pure { x with cut := some cut } := by
  have same : addUnlessOmitted d z { o with probabilityCut := true } =
    addUnlessOmitted d z { o with probabilityCut := false } := rfl
  unfold build addCut
  by_cases generated : d.isGenerated = true
  · by_cases scale : (Scalar.isFinite o.scaleFactor && decide (0 < o.scaleFactor)) = true
    · simp [generated, scale, same]
    · simp [generated, scale]
  · simp [generated]

/-- Without an eager cut there is no position of it. -/
theorem build_uncut (z : DecisionVariables) (o : PathVariableOptions α) :
    build d z { o with probabilityCut := false } =
      build d z { o with probabilityCut := false } >>= fun x => pure { x with cut := none } := by
  unfold build
  by_cases generated : d.isGenerated = true
  · by_cases scale : (Scalar.isFinite o.scaleFactor && decide (0 < o.scaleFactor)) = true
    · simp [generated, scale]
    · simp [generated, scale]
  · simp [generated]

end PathVariables

namespace DiagramFile

/-- The file with its cut lazy or not. -/
def withLazyCut (f : DiagramFile α) (isLazy : Bool) : DiagramFile α :=
  { f with model := { f.model with lazyProbabilityCut := isLazy } }

/-- The decision and path variables, without a cut. -/
def uncut (d : Diagram α) (o : PathVariableOptions α) :
    ProgramM α (DecisionVariables × PathVariables α) := do
  let z ← DecisionVariables.build d o.names
  let x ← PathVariables.build d z { o with probabilityCut := false }
  pure (z, { x with cut := none })

theorem exists_eq_of_uncut {o : PathVariableOptions α} {z : DecisionVariables}
    {x : PathVariables α} {m : Program α} (made : Succeeds (uncut d o) .empty (z, x) m) :
    ∃ x' : PathVariables α, x = { x' with cut := none } := by
  obtain ⟨z', m₁, -, made⟩ := succeeds_bind.mp made
  obtain ⟨x', m₂, -, made⟩ := succeeds_bind.mp made
  exact ⟨x', (Prod.mk.inj (succeeds_pure.mp made).1).2.symm⟩

/-- The mass names no binary variables, whatever is added behind the path variables. -/
theorem groupOf?_cutOf_of_uncut {o : PathVariableOptions α} {z : DecisionVariables}
    {x : PathVariables α} {m m' : Program α} (made : Succeeds (uncut d o) .empty (z, x) m)
    {vs : List (Variable α)} {cs : List (Constraint α)} (grows : Grows m m' vs cs)
    {mass : LinearExpr α} (run : x.mass d = .ok mass) (isLazy : Bool) :
    Search.groupOf? m' (x.cutOf mass isLazy) = none := by
  obtain ⟨z', m₁, decisions, made⟩ := succeeds_bind.mp made
  obtain ⟨x', m₂, paths, made⟩ := succeeds_bind.mp made
  obtain ⟨same, rfl⟩ := succeeds_pure.mp made
  obtain ⟨rfl, rfl⟩ := Prod.mk.inj same
  have enc := (PathVariables.added_of_build paths).encoding decisions
  refine groupOf?_eq_none_of_not_isBinary fun t ht => ?_
  obtain ⟨u, hu, same⟩ := List.mem_map.mp (mem_terms_normalized ht)
  obtain ⟨s, hs, path⟩ := List.mem_map.mp (PathVariables.mem_terms_of_mass run hu)
  have share := enc.isContinuous_share hs
  rw [path, same, isContinuous, Option.any_eq_true] at share
  obtain ⟨v, hv, continuous⟩ := share
  have known : m'.vars[t.1]? = some v := by
    rw [← Array.getElem?_toList] at hv ⊢
    rw [grows.vars, List.getElem?_append_left (List.getElem?_eq_some_iff.mp hv).1, hv]
  rw [isBinary, known, Option.any_some, beq_iff_eq.mp continuous]
  rfl

variable (f : DiagramFile α) (o : PathVariableOptions α)

theorem program_eager : (f.withLazyCut false).program d { o with probabilityCut := true } = (do
    let (z, x) ← uncut d o
    let cut ← x.addCut d false
    let objective ← f.addObjective d x
    pure (z, { x with cut := some cut }, objective)) := by
  unfold program addPaths uncut
  simp only [PathVariables.build_eager, withLazyCut, bind_assoc, pure_bind, Bool.false_eq_true,
    if_false]
  rfl

theorem program_lazy : (f.withLazyCut true).program d { o with probabilityCut := false } = (do
    let (z, x) ← uncut d o
    let _ ← x.addCut d true
    let objective ← f.addObjective d x
    pure (z, x, objective)) := by
  unfold program addPaths uncut
  simp only [bind_assoc, pure_bind]
  refine congrArg (bind _) (funext fun z => ?_)
  rw [PathVariables.build_uncut]
  simp only [withLazyCut, bind_assoc, pure_bind, if_true]
  rfl

/-! ## Both programs -/

omit [Scalar α] in
/-- The options of the path variables are the same, but for the cut. -/
theorem pathVariableOptions_withLazyCut (on : f.model.probabilityCut = true) (isLazy : Bool) :
    (f.withLazyCut isLazy).pathVariableOptions d =
      (f.pathVariableOptions d).map fun o => { o with probabilityCut := !isLazy } := by
  unfold pathVariableOptions withLazyCut
  dsimp only
  cases f.model.forbidden.mapM fun s => ForbiddenPath.ofNames d s.nodes s.states with
  | error e => rfl
  | ok forbidden =>
    cases FixedPath.ofNames d f.model.fixed with
    | error e => rfl
    | ok fixed => simp [bind, Except.bind, pure, Except.pure, Except.map, on]

/-- The cut is the only constraint that is different, and it is the same but for its mark. -/
theorem compileWith_lazy :
    (∃ e, (f.withLazyCut false).compileWith d { o with probabilityCut := true } = .error e ∧
      (f.withLazyCut true).compileWith d { o with probabilityCut := false } = .error e) ∨
    ∃ c k, (f.withLazyCut false).compileWith d { o with probabilityCut := true } = .ok c ∧
      (f.withLazyCut true).compileWith d { o with probabilityCut := false } = .ok { c with
        program := c.program.withLazy k
        paths := { c.paths with cut := none } } ∧
      ∃ row, c.program.constraints[k]? = some row ∧ row.isLazy = false ∧
        Search.groupOf? c.program row = none := by
  unfold compileWith
  rw [program_eager, program_lazy, run_bind, run_bind]
  rcases front : (uncut d o).run.run .empty with ⟨e | ⟨z, x⟩, m⟩
  · exact .inl ⟨e, rfl, rfl⟩
  dsimp only
  rw [run_bind, run_bind, PathVariables.run_addCut, PathVariables.run_addCut]
  cases run : x.mass d with
  | error e => exact .inl ⟨.diagram e, rfl, rfl⟩
  | ok mass =>
    dsimp only
    set m₁ := m.withConstraint (x.cutOf mass false) with cut
    have inside : m.constraints.size < m₁.constraints.size := by
      rw [cut, withConstraint, Array.size_push]
      exact Nat.lt_succ_self _
    obtain ⟨-, later⟩ := ignoresMark_addObjective (d := d) f x m₁ inside
    rw [PathVariables.withConstraint_cutOf, run_bind, run_bind, later]
    rcases added : (f.addObjective d x).run.run m₁ with ⟨e | objective, t⟩
    · exact .inl ⟨e, rfl, rfl⟩
    obtain ⟨vs, cs, grows⟩ := grows_addObjective added
    have both : Grows m t vs (x.cutOf mass false :: cs) := by
      refine ⟨grows.vars, ?_⟩
      rw [grows.constraints, cut, withConstraint, Array.toList_push, List.append_assoc]
      rfl
    refine .inr ⟨_, m.constraints.size, rfl, ?_, x.cutOf mass false, ?_, rfl, ?_⟩
    · obtain ⟨x', rfl⟩ := exists_eq_of_uncut front
      rfl
    · change t.constraints[m.constraints.size]? = _
      rw [← Array.getElem?_toList, both.constraints, ← Array.length_toList,
        List.getElem?_append_right le_rfl, Nat.sub_self]
      rfl
    · exact groupOf?_cutOf_of_uncut front both run false

/-- With the probability cut on it makes no difference whether it is lazy: compiling fails with the
same error, or it gives programs that differ in the mark of one constraint alone, which have the
same answers. -/
theorem lazy_cut_equivalent (f : DiagramFile α) (d : Diagram α)
    (on : f.model.probabilityCut = true) :
    (∃ e, (f.withLazyCut false).compile d = .error e ∧ (f.withLazyCut true).compile d = .error e) ∨
    ∃ c k row, (f.withLazyCut false).compile d = .ok c ∧
      (f.withLazyCut true).compile d = .ok { c with
        program := c.program.withLazy k
        paths := { c.paths with cut := none } } ∧
      c.program.constraints[k]? = some row ∧ row.isLazy = false ∧
      ∀ settings,
        Search.solve settings (c.program.withLazy k) = Search.solve settings c.program := by
  unfold compile
  rw [pathVariableOptions_withLazyCut f on, pathVariableOptions_withLazyCut f on]
  cases f.pathVariableOptions d with
  | error e => exact .inl ⟨.diagram e, rfl, rfl⟩
  | ok o =>
    rcases compileWith_lazy (d := d) f o with
      ⟨e, eager, late⟩ | ⟨c, k, eager, late, row, at_k, mark, none⟩
    · exact .inl ⟨e, eager, late⟩
    · refine .inr ⟨c, k, row, eager, late, at_k, mark, Search.solve_withLazy fun r hr => ?_⟩
      rw [at_k] at hr
      exact Option.some.inj hr ▸ none

/-- A lazy cut finds the bet of the wager, like an eager one. -/
theorem lazy_cut_equivalent_wager : (wagerFile false .default).model.probabilityCut = true ∧
    ∃ c k s, ((wagerFile false .default).withLazyCut true).compile (wager false) =
        .ok { c with program := c.program.withLazy k, paths := { c.paths with cut := none } } ∧
      ((wagerFile false .default).withLazyCut false).compile (wager false) = .ok c ∧
      Search.solve ⟨2, 0⟩ (c.program.withLazy k) = .ok s ∧
      Search.solve ⟨2, 0⟩ c.program = .ok s ∧ s.objective = 1 := by
  obtain ⟨c, eager, solved⟩ := exists_eq_ok_of_any
    (x := ((wagerFile false .default).withLazyCut false).compile (wager false))
    (fun c => (Search.solve ⟨2, 0⟩ c.program).toOption.any fun s : Solution Exact =>
      decide (s.objective = 1))
    (by decide +kernel)
  obtain ⟨s, found, value⟩ := exists_eq_ok_of_any _ solved
  rcases lazy_cut_equivalent (wagerFile false .default) (wager false) rfl with
    ⟨e, failed, -⟩ | ⟨c', k, row, eager', late, -, -, same⟩
  · rw [failed] at eager
    cases eager
  · rw [eager'] at eager
    obtain rfl := Except.ok.inj eager
    exact ⟨rfl, c', k, s, late, eager', (same _).trans found, found, of_decide_eq_true value⟩

end DiagramFile

end Influence
