import Influence.Proofs.DecisionEncoding
import Influence.Proofs.Layout

/-!
# Path variables and probability

`Satisfies` says in rationals what the constraints of a compiled program say of an assignment
(`Encoding.isSatisfied_iff`).
-/

namespace Influence

open Extended Program

/-! ## What the constraints say -/

section Expressions

variable {values : Array Exact} {a : ℕ → ℚ} {tolerance : ℚ}

/-- A sum of variables is what it should be. -/
theorem isSatisfied_sum_iff {g : List ℕ} {r : ℚ} (hv : ∀ v ∈ g, values.getD v 0 = finite (a v)) :
    (normalized (LinearExpr.sum (g.map LinearExpr.var)) .eq (finite r) false).isSatisfied values
      (finite tolerance) = true ↔ |(g.map a).sum - r| ≤ tolerance := by
  have isFinite : (LinearExpr.sum (g.map LinearExpr.var) : LinearExpr Exact).IsFinite :=
    LinearExpr.isFinite_sum fun e he => by
      obtain ⟨v, _, rfl⟩ := List.mem_map.mp he
      exact LinearExpr.isFinite_var v
  have value : (LinearExpr.sum (g.map LinearExpr.var) : LinearExpr Exact).valueAt a =
      (g.map a).sum := by
    rw [LinearExpr.valueAt_sum fun e he => ?_, List.map_map]
    · exact congrArg List.sum (List.map_congr_left fun v _ => LinearExpr.valueAt_var v a)
    · obtain ⟨v, _, rfl⟩ := List.mem_map.mp he
      exact LinearExpr.isFinite_var v
  rw [isSatisfied_normalized_iff isFinite (a := a) fun t ht => ?_, value]
  · rfl
  · obtain ⟨e, he, ht⟩ := List.mem_flatMap.mp ht
    obtain ⟨v, hg, rfl⟩ := List.mem_map.mp he
    obtain rfl := List.mem_singleton.mp ht
    exact hv v hg

theorem isSatisfied_oneHot_iff {g : List ℕ} (hv : ∀ v ∈ g, values.getD v 0 = finite (a v)) :
    (oneHot g : Constraint Exact).isSatisfied values (finite tolerance) = true ↔
      |(g.map a).sum - 1| ≤ tolerance := isSatisfied_sum_iff hv

theorem PathVariables.linked_spec (x : ℕ) (vs : List ℕ) (a : ℕ → ℚ) :
    (PathVariables.linked x vs : LinearExpr Exact).IsFinite ∧
      (PathVariables.linked x vs : LinearExpr Exact).valueAt a = a x - (vs.map a).sum ∧
      ∀ t ∈ (PathVariables.linked x vs : LinearExpr Exact).terms, t.1 = x ∨ t.1 ∈ vs := by
  induction vs using List.reverseRecOn with
  | nil =>
    refine ⟨LinearExpr.isFinite_var x, ?_, fun t ht => .inl ?_⟩
    · rw [PathVariables.linked, List.foldl_nil, LinearExpr.valueAt_var, List.map_nil,
        List.sum_nil, sub_zero]
    · rw [List.mem_singleton.mp ht]
  | append_singleton vs v ih =>
    obtain ⟨isFinite, value, named⟩ := ih
    rw [PathVariables.linked, List.foldl_append, ← PathVariables.linked, List.foldl_cons,
      List.foldl_nil]
    refine ⟨isFinite.sub (LinearExpr.isFinite_var v), ?_, fun t ht => ?_⟩
    · rw [LinearExpr.valueAt_sub isFinite (LinearExpr.isFinite_var v), value,
        LinearExpr.valueAt_var, List.map_append, List.sum_append]
      simp only [List.map_cons, List.map_nil, List.sum_cons, List.sum_nil]
      ring
    · rw [List.mem_append, List.mem_singleton]
      rcases List.mem_append.mp ht with ht | ht
      · exact (named t ht).imp_right .inl
      · obtain ⟨u, hu, rfl⟩ := List.mem_map.mp ht
        rw [List.mem_singleton.mp hu]
        exact .inr (.inr rfl)

theorem isSatisfied_linkTo_iff {x v : ℕ} (hx : values.getD x 0 = finite (a x))
    (hv : values.getD v 0 = finite (a v)) :
    (PathVariables.linkTo x v : Constraint Exact).isSatisfied values (finite tolerance) = true ↔
      a x - a v ≤ tolerance := by
  obtain ⟨isFinite, value, named⟩ := PathVariables.linked_spec x [v] a
  have eq : (PathVariables.linkTo x v : Constraint Exact) =
      normalized (PathVariables.linked x [v]) .le 0 false := rfl
  rw [eq, zero_eq_finite, isSatisfied_normalized_iff isFinite (a := a) fun t ht => ?_, value]
  · simp [Sense.Passes]
  · rcases named t ht with h | h
    · rwa [h]
    · rwa [List.mem_singleton.mp h]

theorem isSatisfied_bound_iff {x : ℕ} {vs : List ℕ} {n : ℕ}
    (hx : values.getD x 0 = finite (a x)) (hv : ∀ v ∈ vs, values.getD v 0 = finite (a v)) :
    (normalized (PathVariables.linked x vs) .ge (1 - Scalar.ofNat n) false :
        Constraint Exact).isSatisfied values (finite tolerance) = true ↔
      -tolerance ≤ a x - (vs.map a).sum - (1 - n) := by
  obtain ⟨isFinite, value, named⟩ := PathVariables.linked_spec x vs a
  rw [ofNat_eq_finite, one_eq_finite, finite_sub,
    isSatisfied_normalized_iff isFinite (a := a) fun t ht => ?_, value]
  · rfl
  · rcases named t ht with h | h
    · rwa [h]
    · exact hv _ h

theorem isSatisfied_pathConstraints_iff (tolerance : ℚ) {d : Diagram Exact} {z : DecisionVariables}
    {o : PathVariableOptions Exact} {p : Path} {x : ℕ} (hx : values.getD x 0 = finite (a x))
    (hv : ∀ v ∈ PathVariables.selectedAt z p d.decision, values.getD v 0 = finite (a v)) :
    (∀ c ∈ PathVariables.pathConstraints d z o p x,
        c.isSatisfied values (finite tolerance) = true) ↔
      (∀ v ∈ PathVariables.selectedAt z p d.decision, a x - a v ≤ tolerance) ∧
      ((PathVariables.bindsBelow d o && !d.decision.isEmpty) = true →
        -tolerance ≤ a x - ((PathVariables.selectedAt z p d.decision).map a).sum -
          (1 - d.decision.length)) := by
  rw [PathVariables.pathConstraints, List.forall_mem_append, List.forall_mem_map]
  refine and_congr (forall₂_congr fun v mem => isSatisfied_linkTo_iff hx (hv v mem)) ?_
  split
  case isTrue bound =>
    rw [List.forall_mem_singleton, isSatisfied_bound_iff hx hv]
    exact ⟨fun h _ => h, fun h => h bound⟩
  case isFalse bound => exact iff_of_true (by simp) fun h => absurd h bound

end Expressions

/-! ## Admitted paths -/

namespace PathVariables.LaidOut

variable {d : Diagram Exact} {z : DecisionVariables} {o : PathVariableOptions Exact}
  {x : PathVariables Exact} {start : ℕ}

theorem isAdmitted_iff (hn : d.Weighed) {forbidden : List ForbiddenPath} {p : Path}
    (hp : inRange d.states p = true) :
    isAdmitted d forbidden p = true ↔
      d.weight p ≠ 0 ∧ ∀ f ∈ forbidden, f.covers p = false := by
  rw [PathVariables.isAdmitted_iff, hn.probabilityOf_eq hp]
  refine and_congr_left fun _ => ?_
  simp [zero_eq_finite]

/-- The paths with variables: in range, of positive probability, not forbidden, and in
agreement with the forced states. -/
theorem mem_paths_iff (h : LaidOut d z o x start) (hn : d.Weighed) {p : Path} :
    p ∈ x.vars.map (·.1) ↔ inRange d.states p = true ∧ d.weight p ≠ 0 ∧
      (∀ f ∈ o.forbidden, f.covers p = false) ∧
      ∀ i s, o.fixed.get? i = some s → p[i]? = some s := by
  obtain ⟨ps, run, admitted, -⟩ := h.paths
  rw [admitted, List.mem_filter, Paths.mem_toList_withFixed run, and_assoc]
  refine and_congr_right fun hp => ?_
  rw [isAdmitted_iff hn hp, and_comm, and_assoc]

theorem nodup_paths (h : LaidOut d z o x start) : (x.vars.map (·.1)).Nodup := by
  obtain ⟨ps, run, admitted, -⟩ := h.paths
  rw [admitted]
  exact (Paths.nodup_toList_withFixed run).filter _

theorem inRange (h : LaidOut d z o x start) {t : Path × ℕ} (ht : t ∈ x.vars) :
    inRange d.states t.1 = true := by
  obtain ⟨ps, run, admitted, -⟩ := h.paths
  have member : t.1 ∈ x.vars.map (·.1) := List.mem_map_of_mem ht
  rw [admitted] at member
  exact ((Paths.mem_toList_withFixed run).mp (List.mem_filter.mp member).1).1

theorem weight_pos (h : LaidOut d z o x start) (hn : d.Weighed) {t : Path × ℕ}
    (ht : t ∈ x.vars) : 0 < d.weight t.1 := by
  obtain ⟨hp, nonzero, -⟩ := (h.mem_paths_iff hn).mp (List.mem_map_of_mem ht)
  exact lt_of_le_of_ne (hn.weight_nonneg hp) nonzero.symm

theorem scale_eq (h : LaidOut d z o x start) :
    x.scale = finite x.scale.rational ∧ 0 < x.scale.rational := by
  have value : finite x.scale.rational = x.scale := finite_rational (h.scale ▸ h.isFinite_scale)
  refine ⟨value.symm, ?_⟩
  have pos := h.scale_pos
  rw [← h.scale, ← value] at pos
  exact pos

/-- The mass of the path variables. -/
def massOf (d : Diagram Exact) (x : PathVariables Exact) : LinearExpr Exact :=
  LinearExpr.sum (x.vars.map fun t =>
    LinearExpr.term t.2 (finite (d.weight t.1 * x.scale.rational)))

theorem mass_eq_ok_of_known (scale : x.scale = finite x.scale.rational)
    (weights : ∀ t ∈ x.vars, d.probabilityOf t.1 = .ok (finite (d.weight t.1))) :
    x.mass d = .ok (massOf d x) := by
  unfold mass
  rw [except_mapM_eq_ok_map (g := fun t : Path × ℕ =>
    LinearExpr.term t.2 (finite (d.weight t.1 * x.scale.rational))) fun t ht => ?_]
  · rfl
  · dsimp only
    rw [weights t ht, ← finite_mul, ← scale]
    rfl

theorem mass_eq_ok (h : LaidOut d z o x start) (hn : d.Weighed) :
    x.mass d = .ok (massOf d x) :=
  mass_eq_ok_of_known h.scale_eq.1 fun _ ht => hn.probabilityOf_eq (h.inRange ht)

theorem massOf_spec (d : Diagram Exact) (x : PathVariables Exact) (a : ℕ → ℚ) :
    (massOf d x).IsFinite ∧
      (massOf d x).valueAt a =
        (x.vars.map fun t => d.weight t.1 * x.scale.rational * a t.2).sum ∧
      ∀ t ∈ (massOf d x).terms, t.1 ∈ x.vars.map (·.2) := by
  have isFinite : ∀ e ∈ x.vars.map fun t =>
      LinearExpr.term t.2 (finite (d.weight t.1 * x.scale.rational)), e.IsFinite := by
    intro e he
    obtain ⟨t, _, rfl⟩ := List.mem_map.mp he
    exact LinearExpr.isFinite_term _ _
  refine ⟨LinearExpr.isFinite_sum isFinite, ?_, fun t ht => ?_⟩
  · rw [massOf, LinearExpr.valueAt_sum isFinite, List.map_map]
    exact congrArg List.sum (List.map_congr_left fun t _ => LinearExpr.valueAt_term _ _ a)
  · obtain ⟨e, he, ht⟩ := List.mem_flatMap.mp ht
    obtain ⟨u, hu, rfl⟩ := List.mem_map.mp he
    rw [List.mem_singleton.mp ht]
    exact List.mem_map_of_mem hu

end PathVariables.LaidOut

/-! ## Programs in rationals -/

/-- What the constraints of a program say of an assignment, up to a tolerance. -/
structure Satisfies (d : Diagram Exact) (o : PathVariableOptions Exact) (z : DecisionVariables)
    (x : PathVariables Exact) (tolerance : ℚ) (a : ℕ → ℚ) : Prop where
  oneHot : ∀ g ∈ z.blocks, |(g.map a).sum - 1| ≤ tolerance
  linked : ∀ t ∈ x.vars, ∀ v ∈ PathVariables.selectedAt z t.1 d.decision,
    a t.2 - a v ≤ tolerance
  bound : (PathVariables.bindsBelow d o && !d.decision.isEmpty) = true → ∀ t ∈ x.vars,
    -tolerance ≤ a t.2 - ((PathVariables.selectedAt z t.1 d.decision).map a).sum -
      (1 - d.decision.length)
  cut : x.cutSense.Passes tolerance
    ((x.vars.map fun t => d.weight t.1 * x.scale.rational * a t.2).sum - x.scale.rational)

/-- What the constraints other than the cut say of an assignment, up to a tolerance. -/
structure IsLinked (d : Diagram Exact) (o : PathVariableOptions Exact) (z : DecisionVariables)
    (x : PathVariables Exact) (tolerance : ℚ) (a : ℕ → ℚ) : Prop where
  oneHot : ∀ g ∈ z.blocks, |(g.map a).sum - 1| ≤ tolerance
  linked : ∀ t ∈ x.vars, ∀ v ∈ PathVariables.selectedAt z t.1 d.decision,
    a t.2 - a v ≤ tolerance
  bound : (PathVariables.bindsBelow d o && !d.decision.isEmpty) = true → ∀ t ∈ x.vars,
    -tolerance ≤ a t.2 - ((PathVariables.selectedAt z t.1 d.decision).map a).sum -
      (1 - d.decision.length)

theorem Satisfies.isLinked {d : Diagram Exact} {o : PathVariableOptions Exact}
    {z : DecisionVariables} {x : PathVariables Exact} {tolerance : ℚ} {a : ℕ → ℚ}
    (h : Satisfies d o z x tolerance a) : IsLinked d o z x tolerance a :=
  ⟨h.oneHot, h.linked, h.bound⟩

theorem IsLinked.mono {d : Diagram Exact} {o : PathVariableOptions Exact}
    {z : DecisionVariables} {x : PathVariables Exact} {s t : ℚ} {a : ℕ → ℚ}
    (h : IsLinked d o z x s a) (le : s ≤ t) : IsLinked d o z x t a where
  oneHot g hg := (h.oneHot g hg).trans le
  linked u hu v hv := (h.linked u hu v hv).trans le
  bound binds u hu := (neg_le_neg le).trans (h.bound binds u hu)

namespace Encoding

variable {d : Diagram Exact} {o : PathVariableOptions Exact} {isLazy : Bool}
  {z : DecisionVariables} {x : PathVariables Exact} {m : Program Exact}

/-- Selected variables are decision variables. -/
theorem selectedAt_subset (h : Encoding d o isLazy z x m) (arranged : d.Arranged)
    (small : z.vars.length < Word.count64) {p : Path} (hp : inRange d.states p = true) :
    ∀ v ∈ PathVariables.selectedAt z p d.decision, v ∈ z.vars := by
  intro v hv
  obtain ⟨l, hl, rfl⟩ := (h.decisions.mem_selectedAt_iff arranged small hp).mp hv
  have own := getD_lt_of_inRange hp (arranged.mem_decision_lt (h.decisions.node_mem hl))
  rw [← (h.decisions.locals l hl).states] at own
  exact List.mem_flatMap.mpr ⟨l, hl, LocalVariables.cell_mem (h.decisions.locals l hl)
    (h.decisions.inRange_observed arranged hl hp) own⟩

section IsSatisfied

variable {values : Array Exact} {a : ℕ → ℚ}

/-- The one-hot constraints and those of the path variables hold of finite values where the
assignment is linked. -/
theorem isLinked_iff (h : Encoding d o isLazy z x m) (arranged : d.Arranged)
    (small : z.vars.length < Word.count64)
    (hv : ∀ v < z.vars.length + x.vars.length, values.getD v 0 = finite (a v)) (tolerance : ℚ) :
    (∀ c ∈ z.blocks.map oneHot ++
        x.vars.flatMap fun t => PathVariables.pathConstraints d z o t.1 t.2,
        c.isSatisfied values (finite tolerance) = true) ↔ IsLinked d o z x tolerance a := by
  have decision {v : ℕ} (mem : v ∈ z.vars) : values.getD v 0 = finite (a v) :=
    hv v ((h.mem_vars_lt mem).trans_le (Nat.le_add_right _ _))
  have path {t : Path × ℕ} (ht : t ∈ x.vars) : values.getD t.2 0 = finite (a t.2) :=
    hv _ (h.paths.var_mem ht).2
  have selected {t : Path × ℕ} (ht : t ∈ x.vars) :
      ∀ v ∈ PathVariables.selectedAt z t.1 d.decision, values.getD v 0 = finite (a v) :=
    fun v hv => decision (h.selectedAt_subset arranged small (h.paths.inRange ht) v hv)
  have blocks : ∀ g ∈ z.blocks, ∀ v ∈ g, values.getD v 0 = finite (a v) := by
    intro g hg v hv
    rw [← h.decisions.blocks_flatten] at decision
    exact decision (List.mem_flatten_of_mem hg hv)
  rw [List.forall_mem_append, List.forall_mem_map, List.forall_mem_flatMap]
  constructor
  · rintro ⟨one, paths⟩
    refine ⟨fun g hg => (isSatisfied_oneHot_iff (blocks g hg)).mp (one g hg), fun t ht => ?_,
      fun bound t ht => ?_⟩
    · exact ((isSatisfied_pathConstraints_iff tolerance (path ht) (selected ht)).mp (paths t ht)).1
    · exact ((isSatisfied_pathConstraints_iff tolerance (path ht) (selected ht)).mp (paths t ht)).2 bound
  · intro linked
    refine ⟨fun g hg => (isSatisfied_oneHot_iff (blocks g hg)).mpr (linked.oneHot g hg),
      fun t ht => ?_⟩
    exact (isSatisfied_pathConstraints_iff tolerance (path ht) (selected ht)).mpr
      ⟨linked.linked t ht, fun bound => linked.bound bound t ht⟩

theorem isLinked_of_isSatisfied (h : Encoding d o isLazy z x m) (arranged : d.Arranged)
    (small : z.vars.length < Word.count64)
    (hv : ∀ v < z.vars.length + x.vars.length, values.getD v 0 = finite (a v)) {tolerance : ℚ}
    (satisfied : ∀ c ∈ m.constraints, c.isSatisfied values (finite tolerance) = true) :
    IsLinked d o z x tolerance a := by
  obtain ⟨cuts, constraints, -⟩ := h.constraints
  refine (h.isLinked_iff arranged small hv tolerance).mp fun c hc => satisfied c ?_
  rw [← Array.mem_toList_iff, constraints]
  exact List.mem_append_left _ hc

/-- The constraints of a program with a cut hold of finite values where the assignment
satisfies them. -/
theorem isSatisfied_iff (h : Encoding d o isLazy z x m) (hn : d.Weighed)
    (cut : o.probabilityCut = true ∨ isLazy = true) (small : z.vars.length < Word.count64)
    (hv : ∀ v < z.vars.length + x.vars.length, values.getD v 0 = finite (a v)) (tolerance : ℚ) :
    (∀ c ∈ m.constraints, c.isSatisfied values (finite tolerance) = true) ↔
      Satisfies d o z x tolerance a := by
  obtain ⟨cuts, constraints, cuts_eq, cuts_ne⟩ := h.constraints
  have cut_iff : (∀ c ∈ cuts, c.isSatisfied values (finite tolerance) = true) ↔
      x.cutSense.Passes tolerance
        ((x.vars.map fun t => d.weight t.1 * x.scale.rational * a t.2).sum -
          x.scale.rational) := by
    obtain ⟨isFinite, value, named⟩ := PathVariables.LaidOut.massOf_spec d x a
    have single {c : Constraint Exact} (hc : c ∈ cuts) :
        c.isSatisfied values (finite tolerance) = true ↔ x.cutSense.Passes tolerance
          ((x.vars.map fun t => d.weight t.1 * x.scale.rational * a t.2).sum -
            x.scale.rational) := by
      obtain ⟨mass, isLazy, hmass, rfl⟩ := cuts_eq c hc
      obtain rfl := Except.ok.inj (hmass.symm.trans (h.paths.mass_eq_ok hn))
      rw [PathVariables.cutOf, h.paths.scale_eq.1,
        isSatisfied_normalized_iff isFinite (a := a) fun t ht => ?_, value, rational_finite]
      obtain ⟨u, hu, same⟩ := List.mem_map.mp (named t ht)
      exact same ▸ hv u.2 (h.paths.var_mem hu).2
    obtain ⟨c, hc⟩ := List.exists_mem_of_ne_nil _ (cuts_ne.mp cut)
    exact ⟨fun all => (single hc).mp (all c hc), fun passes c hc => (single hc).mpr passes⟩
  have all_iff : (∀ c ∈ m.constraints, c.isSatisfied values (finite tolerance) = true) ↔
      ∀ c ∈ m.constraints.toList, c.isSatisfied values (finite tolerance) = true := by
    simp only [Array.mem_toList_iff]
  rw [all_iff, constraints, List.forall_mem_append, cut_iff, h.isLinked_iff hn small hv]
  exact ⟨fun ⟨⟨one, linked, bound⟩, passes⟩ => ⟨one, linked, bound, passes⟩,
    fun satisfies => ⟨satisfies.isLinked, satisfies.cut⟩⟩

end IsSatisfied

/-- Without a forced chance node the cut is an equation. -/
theorem cutSense_eq (h : Encoding d o isLazy z x m) (arranged : d.Arranged)
    (free : ∀ e ∈ o.fixed.entries, e.1 ∉ d.chance) : x.cutSense = .eq := by
  obtain ⟨forced, run, sense⟩ := h.paths.cutSense
  have unforced : forced = false := by
    clear sense
    generalize o.fixed.entries = entries at free run
    induction entries with
    | nil => exact (Except.ok.inj run).symm
    | cons e entries ih =>
      obtain ⟨i, s⟩ := e
      obtain ⟨first, rest⟩ := List.forall_mem_cons.mp free
      unfold PathVariables.forcesChance at run
      split at run
      case h_1 => cases run
      case h_2 n hn' =>
        rw [if_neg fun kind => first ((arranged.mem_chance hn').mpr kind)] at run
        exact ih rest run
  rw [sense, unforced]
  rfl

end Encoding

/-! ## Admitted values -/

/-- Values that the variables of a program admit: bits for decisions, shares for paths. -/
structure IsAssignment (z : DecisionVariables) (x : PathVariables Exact) (values : Array Exact) :
    Prop where
  isFinite : ∀ v < z.vars.length + x.vars.length, values.getD v 0 = finite (reading values v)
  bits : ∀ v ∈ z.vars, reading values v = 0 ∨ reading values v = 1
  shares : ∀ t ∈ x.vars, 0 ≤ reading values t.2 ∧ reading values t.2 ≤ 1

namespace Encoding

variable {d : Diagram Exact} {o : PathVariableOptions Exact} {isLazy : Bool}
  {z : DecisionVariables} {x : PathVariables Exact} {m : Program Exact}

private theorem admits_bit_iff {v : Variable Exact} (h : v.IsBit) {y : Exact} :
    Variable.admits v y 0 = true ↔ y = 0 ∨ y = 1 := by
  obtain ⟨kind, lower, upper, name⟩ := v
  obtain ⟨rfl, rfl, rfl⟩ := h
  exact admits_binary_iff

private theorem admits_share_iff {v : Variable Exact} (h : v.IsShare) {y : Exact} :
    Variable.admits v y 0 = true ↔ ∃ r : ℚ, y = finite r ∧ 0 ≤ r ∧ r ≤ 1 := by
  obtain ⟨kind, lower, upper, name⟩ := v
  obtain ⟨rfl, rfl, rfl⟩ := h
  exact admits_bounded_iff

/-- The variables of a program admit values that are an assignment. -/
theorem admits_iff (h : Encoding d o isLazy z x m) {values : Array Exact}
    (size : z.vars.length + x.vars.length ≤ values.size) :
    (∀ i v, m.vars[i]? = some v →
        Variable.admits v (values.getD i Scalar.notANumber) 0 = true) ↔
      IsAssignment z x values := by
  obtain ⟨bits, shares, vars, bits_length, areBits, shares_length, areShares⟩ := h.vars
  have default {v : ℕ} (hv : v < z.vars.length + x.vars.length) :
      values.getD v Scalar.notANumber = values.getD v 0 := by
    simp [Array.getD, hv.trans_le size]
  have bit {v : ℕ} (hv : v < z.vars.length) :
      ∃ w, m.vars[v]? = some w ∧ w.IsBit := by
    have inside : v < bits.length := bits_length ▸ hv
    refine ⟨bits[v], ?_, areBits _ (List.getElem_mem inside)⟩
    rw [← Array.getElem?_toList, vars, List.getElem?_append_left inside,
      List.getElem?_eq_getElem inside]
  have share {v : ℕ} (low : z.vars.length ≤ v) (high : v < z.vars.length + x.vars.length) :
      ∃ w, m.vars[v]? = some w ∧ w.IsShare := by
    have inside : v - bits.length < shares.length := by omega
    refine ⟨shares[v - bits.length], ?_, areShares _ (List.getElem_mem inside)⟩
    rw [← Array.getElem?_toList, vars, List.getElem?_append_right (bits_length ▸ low),
      List.getElem?_eq_getElem inside]
  constructor
  · intro admits
    have bit_value {v : ℕ} (hv : v < z.vars.length) : values.getD v 0 = 0 ∨ values.getD v 0 = 1 := by
      obtain ⟨w, hw, isBit⟩ := bit hv
      rw [← default (by omega)]
      exact (admits_bit_iff isBit).mp (admits v w hw)
    have share_value {v : ℕ} (low : z.vars.length ≤ v)
        (high : v < z.vars.length + x.vars.length) :
        ∃ r : ℚ, values.getD v 0 = finite r ∧ 0 ≤ r ∧ r ≤ 1 := by
      obtain ⟨w, hw, isShare⟩ := share low high
      rw [← default high]
      exact (admits_share_iff isShare).mp (admits v w hw)
    refine ⟨fun v hv => ?_, fun v hv => ?_, fun t ht => ?_⟩
    · by_cases low : v < z.vars.length
      · rcases bit_value low with h | h <;> rw [reading, h] <;> rfl
      · obtain ⟨r, hr, -⟩ := share_value (Nat.le_of_not_lt low) hv
        rw [reading, hr]
        rfl
    · rcases bit_value (h.mem_vars_lt hv) with h | h
      · left
        rw [reading, h]
        rfl
      · right
        rw [reading, h]
        rfl
    · obtain ⟨low, high⟩ := h.paths.var_mem ht
      obtain ⟨r, hr, bounds⟩ := share_value low high
      rw [reading, hr]
      exact bounds
  · rintro ⟨isFinite, isBit, isShare⟩ v w hw
    have hv : v < z.vars.length + x.vars.length := by
      rw [← h.size_eq]
      exact (Array.getElem?_eq_some_iff.mp hw).1
    rw [default hv, isFinite v hv]
    by_cases low : v < z.vars.length
    · obtain ⟨u, hu, bit⟩ := bit low
      obtain rfl := Option.some.inj (hu.symm.trans hw)
      have mem : v ∈ z.vars := by
        rw [h.decisions.vars, List.mem_range'_1, Nat.zero_add]
        exact ⟨Nat.zero_le _, low⟩
      rw [admits_bit_iff bit]
      exact (isBit v mem).imp (congrArg finite) (congrArg finite)
    · obtain ⟨u, hu, share⟩ := share (Nat.le_of_not_lt low) hv
      obtain rfl := Option.some.inj (hu.symm.trans hw)
      have mem : v ∈ x.vars.map (·.2) := by
        rw [h.paths.vars, List.mem_range'_1]
        exact ⟨Nat.le_of_not_lt low, hv⟩
      obtain ⟨t, ht, rfl⟩ := List.mem_map.mp mem
      exact (admits_share_iff share).mpr ⟨_, rfl, isShare t ht⟩

/-- Feasible values at tolerance zero. -/
theorem isFeasible_iff (h : Encoding d o isLazy z x m) (hn : d.Weighed)
    (cut : o.probabilityCut = true ∨ isLazy = true) (small : z.vars.length < Word.count64)
    {values : Array Exact} :
    m.isFeasible values 0 = true ↔ values.size = z.vars.length + x.vars.length ∧
      IsAssignment z x values ∧ Satisfies d o z x 0 (reading values) := by
  rw [Program.isFeasible_iff, h.size_eq]
  refine and_congr_right fun size => ?_
  rw [h.admits_iff size.ge]
  exact and_congr_right fun assignment => h.isSatisfied_iff hn cut small assignment.isFinite 0

/-- The variables of a program admit an assignment at every tolerance. -/
theorem admits_of_isAssignment (h : Encoding d o isLazy z x m) {values : Array Exact}
    (size : z.vars.length + x.vars.length ≤ values.size) (assignment : IsAssignment z x values)
    {tolerance : ℚ} (nonneg : 0 ≤ tolerance) : ∀ i v, m.vars[i]? = some v →
      Variable.admits v (values.getD i Scalar.notANumber) (finite tolerance) = true := by
  intro i v hv
  have admitted := (h.admits_iff size).mpr assignment i v hv
  have inside : i < z.vars.length + x.vars.length := by
    rw [← h.size_eq]
    exact (Array.getElem?_eq_some_iff.mp hv).1
  have value : values.getD i Scalar.notANumber = finite (reading values i) := by
    rw [← assignment.isFinite i inside]
    simp [Array.getD, inside.trans_le size]
  have bounds : v.lower = 0 ∧ v.upper = 1 := by
    obtain ⟨bits, shares, vars, -, areBits, -, areShares⟩ := h.vars
    have member : v ∈ bits ++ shares := vars ▸ Array.mem_toList_iff.mpr (Array.mem_of_getElem? hv)
    rcases List.mem_append.mp member with hv | hv
    · exact ⟨(areBits v hv).lower, (areBits v hv).upper⟩
    · exact ⟨(areShares v hv).lower, (areShares v hv).upper⟩
  obtain ⟨kind, lower, upper, name⟩ := v
  obtain ⟨rfl, rfl⟩ := bounds
  rw [value] at admitted ⊢
  exact Program.admits_mono nonneg admitted

/-- An assignment that is linked exactly is feasible at the tolerances at which the cut lets it
pass. -/
theorem isFeasible_iff_passes (h : Encoding d o isLazy z x m) (hn : d.Weighed)
    (cut : o.probabilityCut = true ∨ isLazy = true) (small : z.vars.length < Word.count64)
    {values : Array Exact} (size : values.size = z.vars.length + x.vars.length)
    (assignment : IsAssignment z x values) (linked : IsLinked d o z x 0 (reading values))
    {tolerance : ℚ} (nonneg : 0 ≤ tolerance) :
    m.isFeasible values (finite tolerance) = true ↔ x.cutSense.Passes tolerance
      ((x.vars.map fun t => d.weight t.1 * x.scale.rational * reading values t.2).sum -
        x.scale.rational) := by
  rw [Program.isFeasible_iff, h.size_eq, h.isSatisfied_iff hn cut small assignment.isFinite]
  constructor
  · exact fun feasible => feasible.2.2.cut
  · intro passes
    have loose := linked.mono nonneg
    exact ⟨size, h.admits_of_isAssignment size.ge assignment nonneg, loose.oneHot, loose.linked,
      loose.bound, passes⟩

theorem isAssignment_of_isFeasible (h : Encoding d o isLazy z x m) {values : Array Exact}
    (feasible : m.isFeasible values 0 = true) : IsAssignment z x values := by
  obtain ⟨size, admits, -⟩ := Program.isFeasible_iff.mp feasible
  rw [h.size_eq] at size
  exact (h.admits_iff size.ge).mp admits

/-- Feasible values at tolerance zero are linked, with or without a cut. -/
theorem isLinked_of_isFeasible (h : Encoding d o isLazy z x m) (arranged : d.Arranged)
    (small : z.vars.length < Word.count64) {values : Array Exact}
    (feasible : m.isFeasible values 0 = true) : IsLinked d o z x 0 (reading values) :=
  h.isLinked_of_isSatisfied arranged small (h.isAssignment_of_isFeasible feasible).isFinite
    (Program.isFeasible_iff.mp feasible).2.2

end Encoding

end Influence
