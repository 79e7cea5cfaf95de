import Influence.Proofs.Separable

/-!
# Solving separable programs

On a separable program the search is exact: what it answers is feasible and no worse than any
feasible assignment of real numbers, it finds a program infeasible only if no real assignment is
feasible, and it gives up on a variable only if the objective is unbounded or nothing is
feasible (`solve_separable`).

Each candidate is settled to the best completion of its bits (`attempt_cases`), and the bits of
every feasible assignment are those of a candidate (`exists_choice`): an equality that makes a
group leaves no other choice than one of its members.
-/

namespace Influence

open Extended Program Search

/-! ## The objective -/

namespace Program

variable {m : Program Exact}

/-- The objective of real values, with the sign turned when minimizing. -/
def scoreAt (m : Program Exact) (a : ℕ → ℝ) : ℝ :=
  (m.direction.sign : ℝ) * m.objective.realAt a

theorem scoreAt_cast (m : Program Exact) (a : ℕ → ℚ) :
    m.scoreAt (fun v => (a v : ℝ)) = ((m.direction.sign * m.objective.valueAt a : ℚ) : ℝ) := by
  rw [scoreAt, LinearExpr.realAt_cast, Rat.cast_mul]

/-- The preference for a named variable is its coefficient in the score. -/
theorem preference_of_mem (hm : m.WellFormed) (hf : m.IsFinite) {t : ℕ × Exact}
    (ht : t ∈ m.objective.terms) :
    preference m t.1 = finite (m.direction.sign * t.2.rational) := by
  rw [preference_eq_coefficient hf.objective, LinearExpr.termsAt_single hm.objectiveNames ht]

/-- Values that agree on the bits compare as the preferences compare the others. -/
theorem scoreAt_le (hm : m.WellFormed) (hf : m.IsFinite) {a b : ℕ → ℝ}
    (bits : ∀ v, m.isBinary v = true → a v = b v)
    (shares : ∀ v, m.isContinuous v = true → ∀ p : ℚ, preference m v = finite p →
      (p : ℝ) * a v ≤ p * b v) :
    m.scoreAt a ≤ m.scoreAt b := by
  have term : ∀ t ∈ m.objective.terms, (m.direction.sign : ℝ) * ((t.2.rational : ℝ) * a t.1) ≤
      (m.direction.sign : ℝ) * ((t.2.rational : ℝ) * b t.1) := by
    intro t ht
    rcases isBinary_or_isContinuous (hm.objectiveNamed t ht) with binary | continuous
    · rw [bits _ binary]
    · have share := shares _ continuous _ (preference_of_mem hm hf ht)
      rwa [Rat.cast_mul, mul_assoc, mul_assoc] at share
  have sums := List.sum_le_sum term
  rw [List.sum_map_mul_left, List.sum_map_mul_left] at sums
  rw [scoreAt, scoreAt, LinearExpr.realAt, LinearExpr.realAt, mul_add, mul_add]
  exact add_le_add_right sums _

/-- Moving one variable moves the score by its preference. -/
theorem scoreAt_update (hf : m.IsFinite) (a : ℕ → ℝ) {v : ℕ} {p : ℚ}
    (hp : preference m v = finite p) (r : ℝ) :
    m.scoreAt (Function.update a v r) = m.scoreAt a + p * (r - a v) := by
  have moved (ts : List (ℕ × Exact)) : LinearExpr.termsReal ts (Function.update a v r) =
      LinearExpr.termsReal ts a + (LinearExpr.termsAt ts (Pi.single v 1) : ℝ) * (r - a v) := by
    induction ts with
    | nil => simp [LinearExpr.termsReal]
    | cons t ts ih =>
      rw [LinearExpr.termsReal_cons, LinearExpr.termsReal_cons, LinearExpr.termsAt_cons, ih]
      by_cases own : t.1 = v
      · rw [own, Function.update_self, Pi.single_eq_same]
        push_cast
        ring
      · rw [Function.update_of_ne own, Pi.single_eq_of_ne own]
        push_cast
        ring
  rw [preference_eq_coefficient hf.objective] at hp
  obtain rfl : _ = p := by injection hp
  rw [scoreAt, scoreAt, LinearExpr.realAt, LinearExpr.realAt, moved]
  push_cast
  ring

theorem FeasibleAt.whole {a : ℕ → ℝ} (feasible : m.FeasibleAt a) {v : ℕ}
    (hv : m.isBinary v = true) : a v = 0 ∨ a v = 1 := by
  rw [isBinary] at hv
  cases hw : m.vars[v]? with
  | none => rw [hw] at hv; cases hv
  | some w =>
    rw [hw, Option.any_some, beq_iff_eq] at hv
    exact (feasible.admits v w hw).whole hv

/-- Every feasible assignment, if there is one, is beaten by any amount. -/
def IsUnbounded (m : Program Exact) : Prop :=
  ∀ a, m.FeasibleAt a → ∀ bound : ℝ, ∃ b, m.FeasibleAt b ∧ bound < m.scoreAt b

/-- A variable that is free in the direction of its preference makes the score unbounded. -/
theorem IsSeparable.isUnbounded (hm : m.WellFormed) (hs : m.IsSeparable) {s : Settling Exact}
    (mem : s ∈ settlings m) {values : Array Exact} {a : ℕ → ℚ}
    (bits : ∀ v, m.isBinary v = true → values.getD v 0 = finite (a v)) {p : ℚ}
    (hp : preference m s.index = finite p)
    (opens : Open p (s.confining.foldl (fun b e => confine values s.index b e.1 e.2) s.bounds)) :
    m.IsUnbounded := by
  intro b feasible bound
  have nonzero : (p : ℝ) ≠ 0 := by
    rcases opens with ⟨pos, -⟩ | ⟨neg, -⟩
    · exact Rat.cast_ne_zero.mpr pos.ne'
    · exact Rat.cast_ne_zero.mpr neg.ne
  have square : 0 < (p : ℝ) * p := mul_self_pos.mpr nonzero
  -- The score grows by the square of the preference with each unit step along it.
  set step : ℝ := (|bound - m.scoreAt b| + 1) / (p * p) with hstep
  have nonneg : 0 ≤ step := by positivity
  refine ⟨_, hs.movable hm mem bits opens feasible nonneg, ?_⟩
  have gain : (p : ℝ) * (b s.index + p * step - b s.index) = |bound - m.scoreAt b| + 1 := by
    rw [add_sub_cancel_left, ← mul_assoc, hstep, mul_div_cancel₀ _ square.ne']
  rw [scoreAt_update hs.isFinite b hp, gain]
  have reach := le_abs_self (bound - m.scoreAt b)
  linarith

end Program

namespace Search

variable {m : Program Exact}

/-! ## Settling all variables -/

theorem nodup_index_settlings (m : Program Exact) : ((settlings m).map (·.index)).Nodup := by
  rw [List.Nodup, List.pairwise_map]
  refine List.Pairwise.filterMap _ (R := fun a b : Variable Exact × ℕ => a.2 < b.2) ?_ ?_
  · intro a b less s hs s' hs'
    simp only [Option.ite_none_right_eq_some, Option.some.injEq] at hs hs'
    rw [← hs.2, ← hs'.2]
    exact less.ne
  · rw [← List.pairwise_map (f := Prod.snd), List.zipIdx_map_snd]
    exact List.pairwise_lt_range'

/-- Only the values of the settled variables matter. -/
theorem settled_congr {ss : List (Settling Exact)} {y y' : ℕ → ℚ}
    (same : ∀ s ∈ ss, y s.index = y' s.index) (values : Array Exact) :
    settled ss y values = settled ss y' values := by
  rw [settled_eq_foldl, settled_eq_foldl, List.map_congr_left fun s hs => by rw [same s hs]]

/-- The outcomes of settling several variables, from the outcomes of each: the first that finds
no value or no end of the run decides. -/
theorem settleAll_cases {Q : Array Exact → Prop} (Good : Settling Exact → ℚ → Prop)
    (Empty Opens : Settling Exact → Prop) {ss : List (Settling Exact)}
    (distinct : (ss.map (·.index)).Nodup)
    (step : ∀ s ∈ ss, ∀ values, Q values →
      (s.settle 0 values = .ok none ∧ Empty s) ∨
        (s.settle 0 values = .error (.unbounded s.name) ∧ Opens s) ∨
        ∃ y : ℚ, s.settle 0 values = .ok (some (values.setIfInBounds s.index (finite y))) ∧
          Good s y)
    (kept : ∀ s ∈ ss, ∀ values, Q values → ∀ y : ℚ,
      Q (values.setIfInBounds s.index (finite y)))
    {values : Array Exact} (hQ : Q values) :
    (settleAll 0 ss values = .ok none ∧ ∃ s ∈ ss, Empty s) ∨
      (∃ s ∈ ss, settleAll 0 ss values = .error (.unbounded s.name) ∧ Opens s) ∨
      ∃ y : ℕ → ℚ, settleAll 0 ss values = .ok (some (settled ss y values)) ∧
        ∀ s ∈ ss, Good s (y s.index) := by
  induction ss generalizing values with
  | nil => exact .inr (.inr ⟨0, rfl, by simp⟩)
  | cons s ss ih =>
    obtain ⟨fresh, distinct⟩ := List.nodup_cons.mp distinct
    have rest {values : Array Exact} (hQ : Q values) :=
      ih distinct (fun u hu => step u (List.mem_cons_of_mem _ hu))
        (fun u hu => kept u (List.mem_cons_of_mem _ hu)) hQ
    rcases step s List.mem_cons_self values hQ with
      ⟨run, empty⟩ | ⟨run, opens⟩ | ⟨y, run, good⟩
    · rw [settleAll, run]
      exact .inl ⟨rfl, s, List.mem_cons_self, empty⟩
    · rw [settleAll, run]
      exact .inr (.inl ⟨s, List.mem_cons_self, rfl, opens⟩)
    · rw [settleAll, run]
      dsimp only
      rcases rest (kept s List.mem_cons_self values hQ y) with
        ⟨run, u, hu, empty⟩ | ⟨u, hu, run, opens⟩ | ⟨ys, run, goods⟩
      · exact .inl ⟨run, u, List.mem_cons_of_mem _ hu, empty⟩
      · exact .inr (.inl ⟨u, List.mem_cons_of_mem _ hu, run, opens⟩)
      · have others : ∀ u ∈ ss, Function.update ys s.index y u.index = ys u.index := by
          intro u hu
          have differ : u.index ≠ s.index := by
            intro same
            apply fresh
            exact List.mem_map.mpr ⟨u, hu, same⟩
          rw [Function.update_of_ne differ]
        refine .inr (.inr ⟨Function.update ys s.index y, ?_, ?_⟩)
        · rw [run, ← settled_congr others]
          unfold settled
          rw [List.foldl_cons, Function.update_self]
        · refine List.forall_mem_cons.mpr ⟨?_, fun u hu => ?_⟩
          · rw [Function.update_self]
            exact good
          · rw [others u hu]
            exact goods u hu

/-! ## One candidate -/

/-- The values carry the bits of a candidate. -/
structure Carries (m : Program Exact) (bits : ℕ → ℚ) (values : Array Exact) : Prop where
  size : values.size = m.vars.size
  bits : ∀ v, m.isBinary v = true → values.getD v 0 = finite (bits v)

/-- Real values that agree with the bits of a candidate. -/
def Extends (m : Program Exact) (bits : ℕ → ℚ) (a : ℕ → ℝ) : Prop :=
  ∀ v, m.isBinary v = true → a v = bits v

/-- The best of the values that a variable may take next to the bits. -/
structure Settles (m : Program Exact) (bits : ℕ → ℚ) (v : ℕ) (y : ℚ) : Prop where
  allows : m.Allows (fun w => (bits w : ℝ)) v (y : ℝ)
  best : ∀ r, m.Allows (fun w => (bits w : ℝ)) v r → ∀ p : ℚ, preference m v = finite p →
    (p : ℝ) * r ≤ p * y

/-- The outcomes of settling a variable of a separable program. -/
theorem settling_cases (hm : m.WellFormed) (hs : m.IsSeparable) {bits : ℕ → ℚ}
    {values : Array Exact} (carries : Carries m bits values) {s : Settling Exact}
    (mem : s ∈ settlings m) :
    (s.settle 0 values = .ok none ∧ ∀ r, ¬ m.Allows (fun w => (bits w : ℝ)) s.index r) ∨
      (s.settle 0 values = .error (.unbounded s.name) ∧ m.IsUnbounded) ∨
      ∃ y : ℚ, s.settle 0 values = .ok (some (values.setIfInBounds s.index (finite y))) ∧
        Settles m bits s.index y := by
  have own := preference_eq_coefficient hs.isFinite.objective s.index
  set p := m.direction.sign * LinearExpr.termsAt m.objective.terms (Pi.single s.index 1)
  have range := (hs.narrows_settling hm mem carries.bits).1
  have preference : s.preference = finite p := by
    obtain ⟨w, -, -, settles⟩ := mem_settlings.mp mem
    rw [settles]
    exact own
  rcases settle_cases range preference with
    ⟨run, empty⟩ | ⟨run, opens⟩ | ⟨y, run, holds, best⟩
  · exact .inl ⟨run, empty⟩
  · exact .inr (.inl ⟨run, hs.isUnbounded hm mem carries.bits own opens⟩)
  · refine .inr (.inr ⟨y, run, holds, fun r hr p' hp => ?_⟩)
    obtain rfl : p = p' := by injection own.symm.trans hp
    exact best r hr

theorem Carries.set {bits : ℕ → ℚ} {values : Array Exact} (carries : Carries m bits values)
    {v : ℕ} (hv : m.isContinuous v = true) (x : Exact) :
    Carries m bits (values.setIfInBounds v x) where
  size := by rw [Array.size_setIfInBounds, carries.size]
  bits w binary := by
    have differ : w ≠ v := fun same => not_isContinuous_of_isBinary binary (same ▸ hv)
    rw [getD_set_of_ne differ, carries.bits w binary]

/-- The answer of an attempt is a feasible assignment with its score. -/
structure Answers (m : Program Exact) (top : Scored Exact) (y : ℕ → ℚ) : Prop where
  size : top.values.size = m.vars.size
  values : ∀ v < m.vars.size, top.values.getD v 0 = finite (y v)
  feasible : m.FeasibleAt fun v => (y v : ℝ)
  score : top.score = finite (m.direction.sign * m.objective.valueAt y)

/-- The bits of a candidate together with the values of the other variables. -/
def completed (m : Program Exact) (bits y : ℕ → ℚ) (v : ℕ) : ℚ :=
  if m.isContinuous v = true then y v else bits v

theorem completed_bit {bits y : ℕ → ℚ} {v : ℕ} (hv : m.isBinary v = true) :
    completed m bits y v = bits v := if_neg (not_isContinuous_of_isBinary hv)

theorem completed_share {bits y : ℕ → ℚ} {v : ℕ} (hv : m.isContinuous v = true) :
    completed m bits y v = y v := if_pos hv

theorem getD_completed {bits y : ℕ → ℚ} {values : Array Exact} (carries : Carries m bits values) :
    ∀ v < m.vars.size,
      (settled (settlings m) y values).getD v 0 = finite (completed m bits y v) := by
  intro v hv
  have inside : ∀ s ∈ settlings m, s.index < values.size := by
    intro s mem
    obtain ⟨w, hw, -⟩ := mem_settlings.mp mem
    rw [carries.size]
    exact (Array.getElem?_eq_some_iff.mp hw).1
  rw [getD_settled y inside]
  rcases isBinary_or_isContinuous hv with binary | continuous
  · have other := not_isContinuous_of_isBinary binary
    rw [if_neg fun index => other (mem_index_settlings.mp index), completed_bit binary,
      carries.bits v binary]
  · rw [if_pos (mem_index_settlings.mpr continuous), completed_share continuous]

/-- Completed values are feasible when the constraints hold: the variables are settled. -/
theorem completed_feasible_iff (hm : m.WellFormed) {bits y : ℕ → ℚ}
    (whole : ∀ v, m.isBinary v = true → bits v = 0 ∨ bits v = 1)
    (settles : ∀ v, m.isContinuous v = true → Settles m bits v (y v)) :
    m.FeasibleAt (fun v => (completed m bits y v : ℝ)) ↔
      ∀ c ∈ m.constraints, c.HoldsAt fun v => (completed m bits y v : ℝ) := by
  refine ⟨fun h => h.holds, fun holds => ⟨fun v w hw => ?_, holds⟩⟩
  cases kind : w.kind with
  | continuous =>
    have continuous : m.isContinuous v = true := by
      rw [isContinuous, hw, Option.any_some, kind]
      rfl
    rw [completed_share continuous]
    exact (settles v continuous).allows.admits w hw
  | binary =>
    have binary : m.isBinary v = true := by
      rw [isBinary, hw, Option.any_some, kind]
      rfl
    obtain ⟨lower, upper⟩ := hm.bits w (Array.mem_of_getElem? hw) kind
    rw [completed_bit binary]
    refine ⟨?_, ?_, fun _ => by exact_mod_cast whole v binary⟩
    · rw [lower, isLower_rat_iff]
      rcases whole v binary with bit | bit <;> rw [bit] <;> exact (by decide)
    · rw [upper, isUpper_rat_iff]
      rcases whole v binary with bit | bit <;> rw [bit] <;> exact (by decide)

/-- Where some extension of the bits is feasible, the settled one is. -/
theorem feasible_completed (hm : m.WellFormed) (hs : m.IsSeparable) {bits y : ℕ → ℚ}
    (whole : ∀ v, m.isBinary v = true → bits v = 0 ∨ bits v = 1)
    (settles : ∀ v, m.isContinuous v = true → Settles m bits v (y v)) {a : ℕ → ℝ}
    (feasible : m.FeasibleAt a) (agrees : Extends m bits a) :
    m.FeasibleAt fun v => (completed m bits y v : ℝ) := by
  refine (completed_feasible_iff hm whole settles).mpr fun c hc => ?_
  by_cases named : ∃ t ∈ c.expr.terms, m.isContinuous t.1 = true
  · obtain ⟨t, ht, continuous⟩ := named
    have own := List.mem_map_of_mem (f := (·.1)) ht
    refine (Constraint.holdsAt_congr fun u hu => ?_).mp
      ((settles t.1 continuous).allows.holds c hc own)
    by_cases same : u.1 = t.1
    · rw [same, Function.update_self, completed_share continuous]
    · have binary := hs.isBinary_of_ne hm hc continuous own hu same
      rw [Function.update_of_ne same, completed_bit binary]
  · refine (Constraint.holdsAt_congr fun u hu => ?_).mp (feasible.holds c hc)
    have binary := (isBinary_or_isContinuous (hm.named c hc u hu)).resolve_right
      fun continuous => named ⟨u, hu, continuous⟩
    rw [agrees u.1 binary, completed_bit binary]

/-- The three outcomes of an attempt: nothing extends the bits, the program is unbounded, or the
answer is the best that extends them. -/
theorem attempt_cases (hm : m.WellFormed) (hs : m.IsSeparable) {choice : Path} {bits : ℕ → ℚ}
    (start : Carries m bits
      ((space m).assign choice (Array.replicate m.vars.size (0 : Exact))))
    (whole : ∀ v, m.isBinary v = true → bits v = 0 ∨ bits v = 1) :
    ((plan m).attempt 0 choice = .ok none ∧ ∀ a, m.FeasibleAt a → ¬ Extends m bits a) ∨
      (∃ name, (plan m).attempt 0 choice = .error (.unbounded name) ∧ m.IsUnbounded) ∨
      ∃ top y, (plan m).attempt 0 choice = .ok (some top) ∧ Answers m top y ∧
        ∀ a, m.FeasibleAt a → Extends m bits a →
          m.scoreAt a ≤ m.scoreAt fun v => (y v : ℝ) := by
  have continuous {s : Settling Exact} (mem : s ∈ settlings m) :=
    mem_index_settlings.mp (List.mem_map_of_mem (f := (·.index)) mem)
  have outcome := settleAll_cases (Q := Carries m bits) (fun s y => Settles m bits s.index y)
    (fun s => ∀ r, ¬ m.Allows (fun w => (bits w : ℝ)) s.index r) (fun _ => m.IsUnbounded)
    (nodup_index_settlings m) (fun s mem values carries => settling_cases hm hs carries mem)
    (fun s mem values carries y => carries.set (continuous mem) (finite y)) start
  rcases outcome with ⟨run, s, mem, empty⟩ | ⟨s, mem, run, unbounded⟩ | ⟨y, run, settles⟩
  · refine .inl ⟨attempt_of_unsettled (p := plan m) run, fun a feasible agrees => ?_⟩
    exact empty _ ((feasible.allows s.index).congr hm hs (continuous mem) agrees)
  · exact .inr (.inl ⟨s.name, attempt_of_error (p := plan m) run, unbounded⟩)
  set final := settled (settlings m) y
    ((space m).assign choice (Array.replicate m.vars.size (0 : Exact))) with hfinal
  have size : final.size = m.vars.size := by
    rw [hfinal, size_settled, start.size]
  have settled_all (v : ℕ) (hv : m.isContinuous v = true) : Settles m bits v (y v) := by
    obtain ⟨s, mem, rfl⟩ := List.mem_map.mp (mem_index_settlings.mpr hv)
    exact settles s mem
  have values := getD_completed (y := y) start
  have checked := completed_feasible_iff hm whole settled_all
  have satisfied : m.constraints.all (·.isSatisfied final 0) = true ↔
      m.FeasibleAt fun v => (completed m bits y v : ℝ) := by
    rw [checked, Array.all_eq_true_iff_forall_mem]
    refine forall₂_congr fun c hc => ?_
    exact Constraint.isSatisfied_iff_holdsAt (hs.isFinite.constraints c hc) fun t ht =>
      values _ (hm.named c hc t ht)
  have attempt := attempt_of_settled (p := plan m) run
  by_cases feasible : m.FeasibleAt fun v => (completed m bits y v : ℝ)
  · refine .inr (.inr ⟨_, completed m bits y, attempt.trans (congrArg Except.ok
      (if_pos (satisfied.mpr feasible))), ⟨size, values, feasible, ?_⟩, fun a ha agrees => ?_⟩)
    · change finite m.direction.sign * m.objective.evaluate final = _
      rw [LinearExpr.evaluate_eq hs.isFinite.objective fun t ht =>
        values _ (hm.objectiveNamed t ht), finite_mul]
    · refine scoreAt_le hm hs.isFinite (fun v binary => ?_) fun v continuous p hp => ?_
      · rw [agrees v binary, completed_bit binary]
      · rw [completed_share continuous]
        exact (settled_all v continuous).best (a v)
          ((ha.allows v).congr hm hs continuous agrees) p hp
  · refine .inl ⟨attempt.trans (congrArg Except.ok (if_neg fun all => ?_)),
      fun a ha agrees => ?_⟩
    · exact feasible (satisfied.mp all)
    · exact feasible (feasible_completed hm hs whole settled_all ha agrees)

/-! ## All candidates -/

/-- What holds of zero and of everything that is set holds of every value. -/
private theorem foldl_set_values {P : Exact → Prop} {es : List (ℕ × Exact)}
    (writes : ∀ e ∈ es, P e.2) {values : Array Exact} (start : ∀ v, P (values.getD v 0)) (v : ℕ) :
    P ((es.foldl (fun (values : Array Exact) e => values.setIfInBounds e.1 e.2)
      values).getD v 0) := by
  induction es generalizing values with
  | nil => exact start v
  | cons e es ih =>
    obtain ⟨own, others⟩ := List.forall_mem_cons.mp writes
    refine ih others fun w => ?_
    by_cases same : w = e.1
    · subst same
      by_cases inside : e.1 < values.size
      · rw [getD_set_self inside]
        exact own
      · dsimp only
        rw [Array.setIfInBounds_eq_of_size_le (not_lt.mp inside)]
        exact start e.1
    · rw [getD_set_of_ne same]
      exact start w

/-- Every candidate sets bits. -/
theorem writes_of_mem_choices {s : Space} {choice : Path} (mem : choice ∈ s.choices) :
    ∀ e ∈ s.writes Exact choice, e.2 = finite 0 ∨ e.2 = finite 1 := by
  intro e he
  rcases List.mem_append.mp he with he | he
  · obtain ⟨g, -, he⟩ := List.mem_flatMap.mp he
    obtain ⟨u, -, rfl⟩ := List.mem_map.mp he
    dsimp only
    split
    · exact .inr rfl
    · exact .inl rfl
  · obtain ⟨u, hu, rfl⟩ := List.mem_map.mp he
    have ranges := inRange_iff_forall₂.mp (Paths.mem_toList_ofStates.mp mem)
    have bits := List.forall₂_drop_append choice _ _ ranges
    rw [List.length_map, List.forall₂_map_right_iff] at bits
    have small : u.2 < 2 := (List.forall₂_iff_zip.mp bits.flip).2 hu
    rcases (by omega : u.2 = 0 ∨ u.2 = 1) with zero | one
    · rw [zero]
      exact .inl rfl
    · rw [one]
      exact .inr rfl

/-- Every candidate starts from values that carry bits. -/
theorem exists_bits {choice : Path} (mem : choice ∈ (space m).choices) :
    ∃ bits : ℕ → ℚ,
      Carries m bits ((space m).assign choice (Array.replicate m.vars.size (0 : Exact))) ∧
        ∀ v, bits v = 0 ∨ bits v = 1 := by
  set start := (space m).assign choice (Array.replicate m.vars.size (0 : Exact)) with hstart
  have bit (v : ℕ) : start.getD v 0 = finite 0 ∨ start.getD v 0 = finite 1 := by
    rw [hstart, assign_eq_foldl]
    refine foldl_set_values (P := fun x => x = finite 0 ∨ x = finite 1)
      (writes_of_mem_choices mem) (fun w => .inl ?_) v
    rw [Array.getD_eq_getD_getElem?, Array.getElem?_replicate]
    split <;> rfl
  refine ⟨reading start, ⟨?_, fun v _ => ?_⟩, fun v => ?_⟩
  · rw [hstart, size_assign, Array.size_replicate]
  · rcases bit v with h | h <;> rw [reading, h, rational_finite]
  · rcases bit v with h | h <;> rw [reading, h, rational_finite] <;> simp

/-! ## Groups -/

theorem groupOf?_eq_some {c : Constraint Exact} {g : List ℕ} (h : groupOf? m c = some g) :
    c.sense = .eq ∧ (c.rhs == 1) = true ∧ g = c.expr.terms.map (·.1) ∧
      ∀ t ∈ c.expr.terms, (t.2 == 1) = true ∧ m.isBinary t.1 = true := by
  unfold groupOf? at h
  simp only [Option.ite_none_right_eq_some, Option.some.injEq, Bool.and_eq_true, beq_iff_eq,
    List.all_eq_true] at h
  obtain ⟨⟨⟨⟨⟨-, sense⟩, rhs⟩, -⟩, unit⟩, members⟩ := h
  exact ⟨sense, rhs, members.symm, unit⟩

/-- Every group comes from a constraint. -/
theorem exists_constraint_of_mem_groups {g : List ℕ} (hg : g ∈ groups m) :
    ∃ c ∈ m.constraints, groupOf? m c = some g := by
  rw [groups_eq_foldl] at hg
  rcases mem_of_mem_foldl_withGroup hg with hg | hg
  · cases hg
  · obtain ⟨c, hc, own⟩ := List.mem_map.mp hg
    exact ⟨c, Array.mem_toList_iff.mp hc, own⟩

/-- Bits that add up to one: exactly one of them is set. -/
private theorem exists_only_one {xs : List ℝ} (bits : ∀ x ∈ xs, x = 0 ∨ x = 1)
    (sum : xs.sum = 1) : ∃ k < xs.length, ∀ j (hj : j < xs.length), xs[j] = 1 ↔ j = k := by
  induction xs with
  | nil => simp at sum
  | cons x xs ih =>
    obtain ⟨own, others⟩ := List.forall_mem_cons.mp bits
    rw [List.sum_cons] at sum
    rcases own with rfl | rfl
    · obtain ⟨k, hk, only⟩ := ih others (by linarith)
      refine ⟨k + 1, by simpa using hk, fun j hj => ?_⟩
      cases j with
      | zero => simp
      | succ j => simpa using only j (by simpa using hj)
    · have nonneg : ∀ x ∈ xs, 0 ≤ x := by
        intro x hx
        rcases others x hx with rfl | rfl <;> simp
      have none : ∀ x ∈ xs, x = 0 := by
        intro x hx
        have most := List.single_le_sum nonneg x hx
        rcases others x hx with rfl | rfl
        · rfl
        · linarith
      refine ⟨0, by simp, fun j hj => ?_⟩
      cases j with
      | zero => simp
      | succ j =>
        have zero := none _ (List.getElem_mem (by simpa using hj : j < xs.length))
        simp [zero]

/-- A group has exactly one member that is one in a feasible assignment. -/
theorem exists_pick (hm : m.WellFormed) (hf : m.IsFinite) {a : ℕ → ℝ} (feasible : m.FeasibleAt a)
    {g : List ℕ} (hg : g ∈ groups m) :
    ∃ k < g.length, ∀ j (hj : j < g.length), a g[j] = 1 ↔ j = k := by
  obtain ⟨c, hc, own⟩ := exists_constraint_of_mem_groups hg
  obtain ⟨sense, rhs, rfl, unit⟩ := groupOf?_eq_some own
  have finite := hf.constraints c hc
  have one {x : Exact} (isFinite : Scalar.isFinite x = true) (h : (x == 1) = true) :
      x.rational = 1 := by
    rw [← finite_rational isFinite, one_eq_finite, finite_beq] at h
    simpa using h
  have total : ((c.expr.terms.map (·.1)).map a).sum = 1 := by
    have holds := feasible.holds c hc
    rw [Constraint.HoldsAt, sense, LinearExpr.realAt, (hm.isNormal hc finite).constant,
      one finite.rhs rhs] at holds
    have terms : LinearExpr.termsReal c.expr.terms a =
        ((c.expr.terms.map (·.1)).map a).sum := by
      rw [LinearExpr.termsReal, List.map_map]
      refine congrArg List.sum (List.map_congr_left fun t ht => ?_)
      rw [one (finite.expr.terms t ht) (unit t ht).1, Rat.cast_one, one_mul]
      rfl
    rw [terms] at holds
    change ((0 : ℚ) : ℝ) + _ = ((1 : ℚ) : ℝ) at holds
    simpa using holds
  have bits : ∀ x ∈ (c.expr.terms.map (·.1)).map a, x = 0 ∨ x = 1 := by
    intro x hx
    obtain ⟨v, hv, rfl⟩ := List.mem_map.mp hx
    obtain ⟨t, ht, rfl⟩ := List.mem_map.mp hv
    exact feasible.whole (unit t ht).2
  obtain ⟨k, hk, only⟩ := exists_only_one bits total
  refine ⟨k, by simpa using hk, fun j hj => ?_⟩
  simpa using only j (by simpa using hj)

private theorem zip_map_append {α β : Type} (f : α → β) (xs : List α) (ys : List β) :
    xs.zip (xs.map f ++ ys) = xs.map fun x => (x, f x) := by
  induction xs with
  | nil => simp
  | cons x xs ih => simp [ih]

/-- The candidate with given picks of the groups and given free bits. -/
def picking (m : Program Exact) (pick : List ℕ → ℕ) (bit : ℕ → ℕ) : Path :=
  (groups m).map pick ++ (freeBinaries m (groups m)).map bit

theorem picking_mem_choices {pick : List ℕ → ℕ} {bit : ℕ → ℕ}
    (inside : ∀ g ∈ groups m, pick g < g.length) (small : ∀ v, bit v < 2) :
    picking m pick bit ∈ (space m).choices := by
  rw [Space.choices, Paths.mem_toList_ofStates, inRange_iff_forall₂]
  change List.Forall₂ (· < ·) _
    ((groups m).map List.length ++ (freeBinaries m (groups m)).map fun _ => 2)
  refine List.rel_append ?_ ?_
  · rw [List.forall₂_map_left_iff, List.forall₂_map_right_iff, List.forall₂_same]
    exact inside
  · rw [List.forall₂_map_left_iff, List.forall₂_map_right_iff, List.forall₂_same]
    exact fun v _ => small v

theorem writes_picking (pick : List ℕ → ℕ) (bit : ℕ → ℕ) :
    (space m).writes Exact (picking m pick bit) =
      ((groups m).flatMap fun g => g.zipIdx.map fun e => (e.1, if e.2 = pick g then 1 else 0)) ++
        (freeBinaries m (groups m)).map fun v => (v, Scalar.ofNat (bit v)) := by
  have drop : (picking m pick bit).drop (groups m).length =
      (freeBinaries m (groups m)).map bit := List.drop_left' (List.length_map pick)
  change ((groups m).zip (picking m pick bit)).flatMap _ ++
    ((freeBinaries m (groups m)).zip ((picking m pick bit).drop (groups m).length)).map _ = _
  rw [drop, picking, zip_map_append, List.flatMap_map,
    ← List.append_nil ((freeBinaries m (groups m)).map bit), zip_map_append, List.map_map]
  rfl

/-- Every bit is set by a candidate: in a group, or as a free one. -/
theorem isBinary_mem_writes (pick : List ℕ → ℕ) (bit : ℕ → ℕ) {v : ℕ}
    (hv : m.isBinary v = true) :
    v ∈ ((space m).writes Exact (picking m pick bit)).map (·.1) := by
  rw [writes_picking, List.map_append, List.mem_append]
  by_cases grouped : ∃ g ∈ groups m, v ∈ g
  · obtain ⟨g, hg, hv⟩ := grouped
    obtain ⟨j, hj, rfl⟩ := List.getElem_of_mem hv
    refine .inl (List.mem_map.mpr ⟨(g[j], if j = pick g then 1 else 0),
      List.mem_flatMap.mpr ⟨g, hg, List.mem_map.mpr ⟨(g[j], j), ?_, rfl⟩⟩, rfl⟩)
    exact List.mem_zipIdx_iff_getElem?.mpr (List.getElem?_eq_getElem hj)
  · have low : v < m.vars.size := by
      rw [isBinary] at hv
      by_contra high
      rw [Array.getElem?_eq_none (not_lt.mp high)] at hv
      cases hv
    have free : v ∈ freeBinaries m (groups m) := by
      rw [freeBinaries, List.mem_filter]
      refine ⟨List.mem_range.mpr low, ?_⟩
      rw [hv, Bool.true_and, Bool.not_eq_true', List.any_eq_false]
      exact fun g hg contains => grouped ⟨g, hg, List.contains_iff_mem.mp contains⟩
    exact .inr (List.mem_map.mpr ⟨(v, Scalar.ofNat (bit v)), List.mem_map_of_mem free, rfl⟩)

/-- The bits of every feasible assignment are those of a candidate. -/
theorem exists_choice (hm : m.WellFormed) (hf : m.IsFinite) {a : ℕ → ℝ}
    (feasible : m.FeasibleAt a) :
    ∃ choice ∈ (space m).choices, ∀ v, m.isBinary v = true →
      ((space m).assign choice (Array.replicate m.vars.size (0 : Exact))).getD v 0 =
        finite (if a v = 1 then 1 else 0) := by
  classical
  choose! pick inside only using fun g (hg : g ∈ groups m) => exists_pick hm hf feasible hg
  set bit : ℕ → ℕ := fun v => if a v = 1 then 1 else 0 with hbit
  have small (v : ℕ) : bit v < 2 := by
    rw [hbit]
    dsimp only
    split <;> omega
  have values : ∀ e ∈ (space m).writes Exact (picking m pick bit),
      e.2 = finite (if a e.1 = 1 then 1 else 0) ∧ e.1 < m.vars.size := by
    rw [writes_picking]
    intro e he
    rcases List.mem_append.mp he with he | he
    · obtain ⟨g, hg, he⟩ := List.mem_flatMap.mp he
      obtain ⟨⟨v, j⟩, hv, rfl⟩ := List.mem_map.mp he
      dsimp only
      obtain ⟨hj, same⟩ := List.getElem?_eq_some_iff.mp (List.mem_zipIdx_iff_getElem?.mp hv)
      dsimp only at hj same
      obtain ⟨c, hc, own⟩ := exists_constraint_of_mem_groups hg
      obtain ⟨-, -, members, -⟩ := groupOf?_eq_some own
      obtain ⟨t, ht, name⟩ := List.mem_map.mp (members ▸ same ▸ List.getElem_mem hj)
      have chosen := only g hg j hj
      rw [same] at chosen
      refine ⟨?_, name ▸ hm.named c hc t ht⟩
      simp only [chosen]
      split <;> rfl
    · obtain ⟨v, hv, rfl⟩ := List.mem_map.mp he
      refine ⟨?_, List.mem_range.mp (List.mem_filter.mp hv).1⟩
      rw [ofNat_eq_finite, hbit]
      dsimp only
      split <;> simp
  refine ⟨picking m pick bit, picking_mem_choices inside small, fun v binary => ?_⟩
  rw [assign_eq_foldl, getD_foldl_set (t := fun v => finite (if a v = 1 then 1 else 0))
    (fun e he => (values e he).1) (fun e he => ?_), if_pos (isBinary_mem_writes pick bit binary)]
  rw [Array.size_replicate]
  exact (values e he).2

/-! ## The search -/

/-- An attempt at a candidate finds nothing, gives up on an unbounded program, or answers. -/
theorem attempt_of_mem_choices (hm : m.WellFormed) (hs : m.IsSeparable) {choice : Path}
    (mem : choice ∈ (space m).choices) :
    (plan m).attempt 0 choice = .ok none ∨
      (∃ name, (plan m).attempt 0 choice = .error (.unbounded name) ∧ m.IsUnbounded) ∨
      ∃ top y, (plan m).attempt 0 choice = .ok (some top) ∧ Answers m top y := by
  obtain ⟨bits, carries, whole⟩ := exists_bits mem
  rcases attempt_cases hm hs carries (fun v _ => whole v) with
    ⟨run, -⟩ | unbounded | ⟨top, y, run, answers, -⟩
  · exact .inl run
  · exact .inr (.inl unbounded)
  · exact .inr (.inr ⟨top, y, run, answers⟩)

/-- Some candidate answers with a score no worse than that of a feasible assignment, unless the
program is unbounded. -/
theorem exists_attempt (hm : m.WellFormed) (hs : m.IsSeparable) {a : ℕ → ℝ}
    (feasible : m.FeasibleAt a) :
    ∃ choice ∈ (space m).choices,
      (∃ e, (plan m).attempt 0 choice = .error e) ∨
      ∃ top y, (plan m).attempt 0 choice = .ok (some top) ∧ Answers m top y ∧
        m.scoreAt a ≤ m.scoreAt fun v => (y v : ℝ) := by
  classical
  obtain ⟨choice, mem, assigned⟩ := exists_choice hm hs.isFinite feasible
  refine ⟨choice, mem, ?_⟩
  have size : ((space m).assign choice (Array.replicate m.vars.size (0 : Exact))).size =
      m.vars.size := by
    rw [size_assign, Array.size_replicate]
  set bits : ℕ → ℚ := fun v => if a v = 1 then 1 else 0 with hbits
  have whole : ∀ v, m.isBinary v = true → bits v = 0 ∨ bits v = 1 := by
    intro v _
    rw [hbits]
    dsimp only
    split <;> simp
  have agrees : Extends m bits a := by
    intro v binary
    rw [hbits]
    rcases feasible.whole binary with zero | one
    · simp [zero]
    · simp [one]
  rcases attempt_cases hm hs ⟨size, assigned⟩ whole with
    ⟨-, none⟩ | ⟨name, run, -⟩ | ⟨top, y, run, answers, best⟩
  · exact absurd agrees (none a feasible)
  · exact .inl ⟨_, run⟩
  · exact .inr ⟨top, y, run, answers, best a feasible agrees⟩

/-- A kept candidate answers with a score that no feasible assignment beats. -/
theorem best?_eq_some (hm : m.WellFormed) (hs : m.IsSeparable) {best : Scored Exact}
    (run : (plan m).best? 0 (space m).choices = .ok (some best)) :
    ∃ y, Answers m best y ∧ ∀ a, m.FeasibleAt a → m.scoreAt a ≤ m.scoreAt fun v => (y v : ℝ) := by
  obtain ⟨found, runs, kept⟩ := exists_found_of_best? run
  have answers : ∀ s ∈ (space m).choices.filterMap found, ∃ y, Answers m s y := by
    intro s hs'
    obtain ⟨choice, mem, answer⟩ := List.mem_filterMap.mp hs'
    have run := (runs choice mem).trans (congrArg Except.ok answer)
    rcases attempt_of_mem_choices hm hs mem with none | ⟨_, error, -⟩ | ⟨s', y, ok, answers⟩
    · cases run.symm.trans none
    · cases run.symm.trans error
    · obtain rfl := Option.some.inj (Except.ok.inj (run.symm.trans ok))
      exact ⟨y, answers⟩
  have scores : ∀ s ∈ (space m).choices.filterMap found, Scalar.isFinite s.score = true := by
    intro s hs'
    obtain ⟨y, answers⟩ := answers s hs'
    rw [answers.score]
    rfl
  obtain ⟨source, above⟩ := best_spec scores kept
  obtain ⟨y, answer⟩ := answers best source
  refine ⟨y, answer, fun a feasible => ?_⟩
  obtain ⟨choice, mem, ⟨e, run⟩ | ⟨s, ys, run, own, le⟩⟩ := exists_attempt hm hs feasible
  · cases (runs choice mem).symm.trans run
  · have member := List.mem_filterMap.mpr
      ⟨choice, mem, Except.ok.inj ((runs choice mem).symm.trans run)⟩
    have beaten := above s member
    rw [own.score, answer.score, rational_finite, rational_finite] at beaten
    rw [scoreAt_cast] at le ⊢
    exact le.trans (Rat.cast_le.mpr beaten)

/-- If no candidate is kept, no assignment is feasible. -/
theorem best?_eq_none (hm : m.WellFormed) (hs : m.IsSeparable)
    (run : (plan m).best? 0 (space m).choices = .ok none) (a : ℕ → ℝ) : ¬ m.FeasibleAt a := by
  intro feasible
  obtain ⟨found, runs, kept⟩ := exists_found_of_best? run
  obtain ⟨-, empty⟩ := foldl_better_eq_none.mp kept
  obtain ⟨choice, mem, ⟨e, run⟩ | ⟨s, y, run, -⟩⟩ := exists_attempt hm hs feasible
  · cases (runs choice mem).symm.trans run
  · have member := List.mem_filterMap.mpr
      ⟨choice, mem, Except.ok.inj ((runs choice mem).symm.trans run)⟩
    rw [empty] at member
    cases member

/-- The search gives up on unbounded programs only. -/
theorem best?_error (hm : m.WellFormed) (hs : m.IsSeparable) {e : SolverError}
    (run : (plan m).best? 0 (space m).choices = .error e) :
    ∃ name, e = .unbounded name ∧ m.IsUnbounded := by
  have fails : ¬ ∀ choice ∈ (space m).choices,
      ∃ found, (plan m).attempt 0 choice = .ok found := by
    intro all
    choose! found runs using all
    cases run.symm.trans (best?_eq_ok (p := plan m) runs)
  obtain ⟨choice, mem, e', fails, ends⟩ := best?_eq_error fails
  obtain rfl : e' = e := by injection ends.symm.trans run
  rcases attempt_of_mem_choices hm hs mem with ok | ⟨name, error, unbounded⟩ | ⟨s, y, ok, -⟩
  · cases fails.symm.trans ok
  · obtain rfl : e' = .unbounded name := by injection fails.symm.trans error
    exact ⟨name, rfl, unbounded⟩
  · cases fails.symm.trans ok

/-- What the search says about a separable program.  Its answer is a feasible assignment that no
feasible assignment of real numbers beats; infeasible programs have none of these; and where it
gives up on a variable there is none either, or the objective is unbounded over them. -/
theorem solve_separable {m : Program Exact} (built : m.Built) (separable : m.IsSeparable)
    {limit : ℕ} (small : (space m).count ≤ limit) :
    match solve ⟨limit, 0⟩ m with
    | .ok s => m.isFeasible s.values 0 = true ∧
        m.FeasibleAt (fun v => (reading s.values v : ℝ)) ∧
        ∃ best : ℚ, s.objective = finite best ∧ s.objective = m.objective.evaluate s.values ∧
          ∀ a, m.FeasibleAt a → m.scoreAt a ≤ m.direction.sign * best
    | .error .infeasible => ∀ a, ¬ m.FeasibleAt a
    | .error (.unbounded _) => (∀ a, ¬ m.FeasibleAt a) ∨
        ∀ bound : ℝ, ∃ a, m.FeasibleAt a ∧ bound < m.scoreAt a
    | .error (.tooLarge _ _) => False := by
  have hm := built.wellFormed
  rw [solve_eq_match small]
  cases run : (plan m).best? 0 (space m).choices with
  | error e =>
    obtain ⟨name, rfl, unbounded⟩ := best?_error hm separable run
    by_cases nonempty : ∃ a, m.FeasibleAt a
    · obtain ⟨a, feasible⟩ := nonempty
      exact .inr (unbounded a feasible)
    · exact .inl (not_exists.mp nonempty)
  | ok kept =>
    cases kept with
    | none => exact best?_eq_none hm separable run
    | some s =>
      obtain ⟨y, answer, best⟩ := best?_eq_some hm separable run
      have value : m.objective.evaluate s.values = finite (m.objective.valueAt y) :=
        LinearExpr.evaluate_eq separable.isFinite.objective fun t ht =>
          answer.values _ (hm.objectiveNamed t ht)
      have feasible : m.isFeasible s.values 0 = true :=
        (isFeasible_iff_feasibleAt hm separable.isFinite answer.size answer.values).mpr
          answer.feasible
      refine ⟨feasible, ?_, m.objective.valueAt y, value, rfl, fun a ha => ?_⟩
      · refine (isFeasible_iff_feasibleAt hm separable.isFinite answer.size fun v hv => ?_).mp
          feasible
        rw [reading, answer.values v hv, rational_finite]
      · have le := best a ha
        rw [scoreAt_cast] at le
        exact_mod_cast le

/-- A valve lets through three units at most while it is open, and opening it costs one: a flow
without an upper bound of its own is held by a constraint with one bit. -/
def valve : Program Exact :=
  ⟨#[⟨.binary, 0, 1, none⟩, ⟨.continuous, 0, top, none⟩],
    #[normalized (LinearExpr.var 1 - LinearExpr.term 0 (finite 3)) .le 0 false], .maximize,
    (LinearExpr.var 1 - LinearExpr.var 0 : LinearExpr Exact).compact⟩

theorem built_valve : valve.Built := by
  have bit : Built ⟨#[⟨.binary, 0, 1, none⟩], #[], .maximize, .zero⟩ :=
    @Built.binary _ _ none 0 .empty rfl
  have share : Built ⟨#[⟨.binary, 0, 1, none⟩, ⟨.continuous, 0, top, none⟩], #[],
      .maximize, .zero⟩ := @Built.continuous _ _ 0 top none 1 bit rfl
  have held : Built ⟨#[⟨.binary, 0, 1, none⟩, ⟨.continuous, 0, top, none⟩],
      #[normalized (LinearExpr.var 1 - LinearExpr.term 0 (finite 3)) .le 0 false],
      .maximize, .zero⟩ := .constraint (i := 0) share (by decide +kernel) rfl
  exact .objective held (by decide +kernel)

theorem isSeparable_valve : valve.IsSeparable where
  isFinite :=
    { constraints := by
        intro c hc
        obtain rfl := Array.mem_singleton.mp hc
        exact isFinite_normalized
          ((LinearExpr.isFinite_var 1).sub (LinearExpr.isFinite_term 0 3)) .le 0 false
      objective := ((LinearExpr.isFinite_var 1).sub (LinearExpr.isFinite_var 0)).compact }
  lower := by decide +kernel
  upper := by decide +kernel
  alone := by decide +kernel

theorem solve_separable_valve :
    valve.Built ∧ valve.IsSeparable ∧ (space valve).count ≤ 2 ∧
      ∃ s, solve ⟨2, 0⟩ valve = .ok s ∧ s.objective = finite 2 ∧
        ∀ a, valve.FeasibleAt a → valve.scoreAt a ≤ 2 := by
  have small : (space valve).count ≤ 2 := by decide +kernel
  obtain ⟨s, run, value⟩ := exists_eq_ok_of_any (x := solve ⟨2, 0⟩ valve)
    (fun s => s.objective = finite 2) (by decide +kernel)
  have answer := solve_separable built_valve isSeparable_valve small
  rw [run] at answer
  obtain ⟨-, -, best, objective, -, above⟩ := answer
  obtain rfl : best = 2 := by
    injection objective.symm.trans (of_decide_eq_true value)
  refine ⟨built_valve, isSeparable_valve, small, s, run, objective, fun a feasible => ?_⟩
  have le := above a feasible
  rw [show valve.direction.sign = 1 from rfl] at le
  simpa using le

end Search

end Influence
