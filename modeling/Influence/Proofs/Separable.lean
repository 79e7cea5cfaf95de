import Mathlib.Algebra.Order.BigOperators.Group.List
import Influence.Proofs.RealAssignments

/-!
# Separable programs

A program is separable when no constraint names two continuous variables.  Once the binary
variables have their values, each constraint then confines at most one variable, and the values
that are left to a variable do not depend on the other continuous ones (`Allows.congr`).  The
search computes them as an interval, of which an end may be infinite (`narrows_settling`).

Settling a variable has three outcomes (`settle_cases`): no value is left, the preferred end is
infinite, or the variable gets the best of the values that are left.  An infinite end does not
come from the values of the bits, so the variable can then be moved in every feasible assignment
(`movable`).
-/

namespace Influence

open Extended Program Search

/-- Finite numbers, bounds that leave room on their own side, and no constraint that names two
continuous variables. -/
structure Program.IsSeparable (m : Program Exact) : Prop where
  isFinite : m.IsFinite
  lower : ∀ v ∈ m.vars, v.lower < top
  upper : ∀ v ∈ m.vars, bottom < v.upper
  alone : ∀ c ∈ m.constraints, ∀ t ∈ c.expr.terms, ∀ u ∈ c.expr.terms,
    m.isContinuous t.1 = true → m.isContinuous u.1 = true → t.1 = u.1

/-- The real values that a variable may take, the other ones given: its own bounds and kind, and
the constraints that name it. -/
structure Program.Allows (m : Program Exact) (a : ℕ → ℝ) (v : ℕ) (r : ℝ) : Prop where
  admits : ∀ w : Variable Exact, m.vars[v]? = some w → w.AdmitsReal r
  holds : ∀ c ∈ m.constraints, v ∈ c.expr.terms.map (·.1) → c.HoldsAt (Function.update a v r)

/-! ## One constraint and one variable -/

/-- The value at which a constraint holds with equality, the other variables given. -/
noncomputable def Constraint.realLimit (c : Constraint Exact) (v : ℕ) (k : Exact) (a : ℕ → ℝ) :
    ℝ :=
  (c.rhs.rational - LinearExpr.termsReal (c.expr.terms.filter fun t => t.1 ≠ v) a) / k.rational

theorem Constraint.holdsAt_update_iff {c : Constraint Exact} (hc : c.IsNormal) {v : ℕ} {k : Exact}
    (ht : (v, k) ∈ c.expr.terms) (a : ℕ → ℝ) (r : ℝ) :
    c.HoldsAt (Function.update a v r) ↔
      (holdsUp c.sense k = true → c.realLimit v k a ≤ r) ∧
        (holdsDown c.sense k = true → r ≤ c.realLimit v k a) := by
  have left : c.expr.realAt (Function.update a v r) = (k.rational : ℝ) * r +
      LinearExpr.termsReal (c.expr.terms.filter fun t => t.1 ≠ v) a := by
    have constant : c.expr.constant.rational = 0 := by rw [hc.constant]; rfl
    rw [LinearExpr.realAt, constant, Rat.cast_zero, zero_add,
      LinearExpr.termsReal_eq_add hc.names ht, Function.update_self]
    refine congrArg ((k.rational : ℝ) * r + ·) (LinearExpr.termsReal_congr fun t mem => ?_)
    have differ : t.1 ≠ v := by simpa using (List.mem_filter.mp mem).2
    rw [Function.update_of_ne differ]
  have limits := compares_iff c.sense (hc.coefficients _ ht)
    (LinearExpr.termsReal (c.expr.terms.filter fun t => t.1 ≠ v) a) (c.rhs.rational : ℝ) r
  rw [finite_rational (hc.expr.terms _ ht)] at limits
  rw [HoldsAt, left]
  exact limits

theorem Constraint.realLimit_cast (c : Constraint Exact) (v : ℕ) (k : Exact) (a : ℕ → ℚ) :
    c.realLimit v k (fun w => (a w : ℝ)) = (limitAt c v k a : ℝ) := by
  rw [realLimit, limitAt, LinearExpr.termsReal_cast, Rat.cast_div, Rat.cast_sub]

namespace Search

/-! ## Intervals with infinite ends -/

/-- An interval that consists of the real numbers with the property.  An end may be infinite on
its own side. -/
structure Range (bounds : Exact × Exact) (P : ℝ → Prop) : Prop where
  low : bounds.1 < top
  high : bottom < bounds.2
  member : ∀ r, bounds.1.IsLower r ∧ bounds.2.IsUpper r ↔ P r

theorem Range.congr {bounds : Exact × Exact} {P Q : ℝ → Prop} (h : Range bounds P)
    (iff : ∀ r, P r ↔ Q r) : Range bounds Q :=
  ⟨h.low, h.high, fun r => (h.member r).trans (iff r)⟩

/-- The lower end after a constraint: which numbers it lets in, and when it is infinite. -/
private theorem raised_spec {low : Exact} (below : low < top) (up : Bool) (l : ℚ) :
    (if up then Scalar.larger low (finite l) else low) < top ∧
      (∀ r, IsLower (if up then Scalar.larger low (finite l) else low) r ↔
        IsLower low r ∧ (up = true → (l : ℝ) ≤ r)) ∧
      ((if up then Scalar.larger low (finite l) else low) = bottom →
        low = bottom ∧ ¬ up = true) := by
  cases up with
  | false => simpa using below
  | true =>
    cases low with
    | finite x =>
      rw [if_pos rfl, larger_finite]
      refine ⟨trivial, fun r => ?_, nofun⟩
      rw [isLower_finite, isLower_finite, Rat.cast_max, max_le_iff]
      simp
    | bottom => exact ⟨trivial, fun r => ⟨fun h => ⟨trivial, fun _ => h⟩, fun h => h.2 rfl⟩, nofun⟩
    | top => exact below.elim
    | notANumber => exact below.elim

/-- The upper end after a constraint: which numbers it lets in, and when it is infinite. -/
private theorem lowered_spec {high : Exact} (above : bottom < high) (down : Bool) (l : ℚ) :
    bottom < (if down then Scalar.smaller high (finite l) else high) ∧
      (∀ r, IsUpper (if down then Scalar.smaller high (finite l) else high) r ↔
        IsUpper high r ∧ (down = true → r ≤ (l : ℝ))) ∧
      ((if down then Scalar.smaller high (finite l) else high) = top →
        high = top ∧ ¬ down = true) := by
  cases down with
  | false => simpa using above
  | true =>
    cases high with
    | finite x =>
      rw [if_pos rfl, smaller_finite]
      refine ⟨trivial, fun r => ?_, nofun⟩
      rw [isUpper_finite, isUpper_finite, Rat.cast_min, le_min_iff]
      simp
    | top => exact ⟨trivial, fun r => ⟨fun h => ⟨trivial, fun _ => h⟩, fun h => h.2 rfl⟩, nofun⟩
    | bottom => exact above.elim
    | notANumber => exact above.elim

/-- The constraint with a coefficient of the variable can be read off values that are finite on
its other variables. -/
structure Readable (values : Array Exact) (v : ℕ) (a : ℕ → ℚ) (e : Constraint Exact × Exact) :
    Prop where
  normal : e.1.IsNormal
  term : (v, e.2) ∈ e.1.expr.terms
  values : ∀ t ∈ e.1.expr.terms, t.1 ≠ v → values.getD t.1 0 = finite (a t.1)

/-- The interval and its infinite ends after a list of constraints: it consists of the values at
which all of them hold, and an end is infinite only if it was so before and no constraint holds
the variable on that side. -/
structure Narrows (bounds bounds' : Exact × Exact) (cs : List (Constraint Exact × Exact))
    (P Q : ℝ → Prop) : Prop where
  range : Range bounds' fun r => P r ∧ Q r
  bottom : bounds'.1 = bottom → bounds.1 = bottom ∧ ∀ e ∈ cs, ¬ holdsUp e.1.sense e.2 = true
  top : bounds'.2 = top → bounds.2 = top ∧ ∀ e ∈ cs, ¬ holdsDown e.1.sense e.2 = true

/-- One constraint leaves the values at which it holds. -/
theorem narrows_confine {values : Array Exact} {v : ℕ} {a : ℕ → ℚ} {e : Constraint Exact × Exact}
    {bounds : Exact × Exact} {P : ℝ → Prop} (hb : Range bounds P) (he : Readable values v a e) :
    Narrows bounds (confine values v bounds e.1 e.2) [e] P fun r =>
      e.1.HoldsAt (Function.update (fun w => (a w : ℝ)) v r) := by
  obtain ⟨below, low, infinite_low⟩ :=
    raised_spec hb.low (holdsUp e.1.sense e.2) (limitAt e.1 v e.2 a)
  obtain ⟨above, high, infinite_high⟩ :=
    lowered_spec hb.high (holdsDown e.1.sense e.2) (limitAt e.1 v e.2 a)
  rw [confine_eq bounds he.normal he.term he.values]
  refine ⟨⟨below, above, fun r => ?_⟩, fun h => ?_, fun h => ?_⟩
  · dsimp only
    rw [low, high, Constraint.holdsAt_update_iff he.normal he.term, Constraint.realLimit_cast,
      ← hb.member, and_and_and_comm]
  · simpa using infinite_low h
  · simpa using infinite_high h

/-- A list of constraints leaves the values at which all of them hold. -/
theorem narrows_foldl {values : Array Exact} {v : ℕ} {a : ℕ → ℚ}
    {cs : List (Constraint Exact × Exact)} {bounds : Exact × Exact} {P : ℝ → Prop}
    (hb : Range bounds P) (h : ∀ e ∈ cs, Readable values v a e) :
    Narrows bounds (cs.foldl (fun b e => confine values v b e.1 e.2) bounds) cs P fun r =>
      ∀ e ∈ cs, e.1.HoldsAt (Function.update (fun w => (a w : ℝ)) v r) := by
  induction cs generalizing bounds P with
  | nil => exact ⟨hb.congr fun r => by simp, fun h => ⟨h, by simp⟩, fun h => ⟨h, by simp⟩⟩
  | cons e cs ih =>
    obtain ⟨first, rest⟩ := List.forall_mem_cons.mp h
    have one := narrows_confine hb first
    have all := ih one.range rest
    refine ⟨all.range.congr fun r => ?_, fun h => ?_, fun h => ?_⟩
    · rw [List.forall_mem_cons, and_assoc]
    · obtain ⟨ends, others⟩ := all.bottom h
      obtain ⟨ends, own⟩ := one.bottom ends
      exact ⟨ends, List.forall_mem_cons.mpr ⟨own e List.mem_cons_self, others⟩⟩
    · obtain ⟨ends, others⟩ := all.top h
      obtain ⟨ends, own⟩ := one.top ends
      exact ⟨ends, List.forall_mem_cons.mpr ⟨own e List.mem_cons_self, others⟩⟩

/-! ## Settling one variable -/

/-- The end of an interval that a preference asks for is infinite. -/
def Open (preference : ℚ) (bounds : Exact × Exact) : Prop :=
  (0 < preference ∧ bounds.2 = top) ∨ (preference < 0 ∧ bounds.1 = bottom)

/-- A finite end of an interval that is not empty lies in it. -/
private theorem ends_mem {bounds : Exact × Exact} {P : ℝ → Prop} (range : Range bounds P)
    (proper : ¬ bounds.2 + 0 < bounds.1) :
    (∀ high : ℚ, bounds.2 = finite high → P high) ∧ ∀ low : ℚ, bounds.1 = finite low → P low := by
  obtain ⟨low, high⟩ := bounds
  have below : low < top := range.low
  have above : bottom < high := range.high
  refine ⟨fun h same => (range.member h).mp ?_, fun l same => (range.member l).mp ?_⟩
  · obtain rfl : high = finite h := same
    refine ⟨?_, isUpper_finite.mpr le_rfl⟩
    cases low with
    | finite l =>
      rw [zero_eq_finite, finite_add, add_zero, finite_lt, not_lt] at proper
      exact Rat.cast_le.mpr proper
    | bottom => trivial
    | top => exact below.elim
    | notANumber => exact below.elim
  · obtain rfl : low = finite l := same
    refine ⟨isLower_finite.mpr le_rfl, ?_⟩
    cases high with
    | finite h =>
      rw [zero_eq_finite, finite_add, add_zero, finite_lt, not_lt] at proper
      exact Rat.cast_le.mpr proper
    | top => trivial
    | bottom => exact above.elim
    | notANumber => exact above.elim

/-- What the preference picks of an interval that is not empty. -/
private theorem pick?_cases {bounds : Exact × Exact} {P : ℝ → Prop} (range : Range bounds P)
    (proper : ¬ bounds.2 + 0 < bounds.1) (p : ℚ) :
    (pick? (finite p : Exact) bounds = none ∧ Open p bounds) ∨
      ∃ y : ℚ, pick? (finite p : Exact) bounds = some (finite y) ∧ P y ∧
        ∀ r, P r → (p : ℝ) * r ≤ p * y := by
  obtain ⟨high_mem, low_mem⟩ := ends_mem range proper
  obtain ⟨low, high⟩ := bounds
  have below : low < top := range.low
  have above : bottom < high := range.high
  have positive : (0 : Exact) < finite p ↔ 0 < p := Iff.rfl
  have negative : (finite p : Exact) < 0 ↔ p < 0 := Iff.rfl
  have zero : ((finite p : Exact) == 0) = decide (p = 0) := finite_beq p 0
  rcases lt_trichotomy p 0 with neg | rfl | pos
  · cases low with
    | finite l =>
      refine .inr ⟨l, by simp [pick?, positive, negative, neg, not_lt.mpr neg.le],
        low_mem l rfl, fun r hr => ?_⟩
      have least : (l : ℝ) ≤ r := ((range.member r).mpr hr).1
      exact mul_le_mul_of_nonpos_left least (Rat.cast_nonpos.mpr neg.le)
    | bottom =>
      refine .inl ⟨?_, .inr ⟨neg, rfl⟩⟩
      have unbounded : Scalar.isFinite (bottom : Exact) = false := rfl
      simp [pick?, positive, zero, neg.ne, not_lt.mpr neg.le, unbounded]
    | top => exact below.elim
    | notANumber => exact below.elim
  · -- Without a preference any value will do, and the upper end is taken where there is one.
    have level (y : ℚ) (r : ℝ) : ((0 : ℚ) : ℝ) * r ≤ ((0 : ℚ) : ℝ) * y := by simp
    cases high with
    | finite h =>
      exact .inr ⟨h, by simp [pick?, positive, negative, zero], high_mem h rfl,
        fun r _ => level h r⟩
    | top =>
      have unbounded : Scalar.isFinite (top : Exact) = false := rfl
      cases low with
      | finite l =>
        exact .inr ⟨l, by simp [pick?, positive, negative, zero, unbounded], low_mem l rfl,
          fun r _ => level l r⟩
      | bottom =>
        have unbounded' : Scalar.isFinite (bottom : Exact) = false := rfl
        refine .inr ⟨0, ?_, (range.member _).mp ⟨trivial, trivial⟩, fun r _ => level 0 r⟩
        simp [pick?, unbounded, unbounded', zero_eq_finite]
      | top => exact below.elim
      | notANumber => exact below.elim
    | bottom => exact above.elim
    | notANumber => exact above.elim
  · cases high with
    | finite h =>
      refine .inr ⟨h, by simp [pick?, positive, pos], high_mem h rfl, fun r hr => ?_⟩
      have greatest : r ≤ (h : ℝ) := ((range.member r).mpr hr).2
      exact mul_le_mul_of_nonneg_left greatest (Rat.cast_nonneg.mpr pos.le)
    | top =>
      refine .inl ⟨?_, .inl ⟨pos, rfl⟩⟩
      have unbounded : Scalar.isFinite (top : Exact) = false := rfl
      simp [pick?, negative, zero, pos.ne', not_lt.mpr pos.le, unbounded]
    | bottom => exact above.elim
    | notANumber => exact above.elim

/-- The three outcomes of settling a variable. -/
theorem settle_cases {s : Settling Exact} {values : Array Exact} {P : ℝ → Prop}
    (range : Range (s.confining.foldl (fun b e => confine values s.index b e.1 e.2) s.bounds) P)
    {p : ℚ} (hp : s.preference = finite p) :
    (s.settle 0 values = .ok none ∧ ∀ r, ¬ P r) ∨
      (s.settle 0 values = .error (.unbounded s.name) ∧
        Open p (s.confining.foldl (fun b e => confine values s.index b e.1 e.2) s.bounds)) ∨
      ∃ y : ℚ, s.settle 0 values = .ok (some (values.setIfInBounds s.index (finite y))) ∧ P y ∧
        ∀ r, P r → (p : ℝ) * r ≤ p * y := by
  unfold Settling.settle
  simp only [hp]
  generalize s.confining.foldl (fun b e => confine values s.index b e.1 e.2) s.bounds = bounds
    at range ⊢
  by_cases crossed : bounds.2 + 0 < bounds.1
  · rw [if_pos crossed]
    refine .inl ⟨rfl, fun r hr => ?_⟩
    obtain ⟨lower, upper⟩ := (range.member r).mpr hr
    obtain ⟨low, high⟩ := bounds
    cases low <;> cases high <;> try exact crossed.elim
    case finite.finite l h =>
      rw [zero_eq_finite, finite_add, add_zero, finite_lt] at crossed
      exact absurd (lower.trans upper) (not_le.mpr (Rat.cast_lt.mpr crossed))
    all_goals first | exact lower.elim | exact upper.elim
  · rw [if_neg crossed]
    rcases pick?_cases range crossed p with ⟨none, opens⟩ | ⟨y, some, holds, best⟩
    · rw [none]
      exact .inr (.inl ⟨rfl, opens⟩)
    · rw [some]
      exact .inr (.inr ⟨y, rfl, holds, best⟩)

end Search

/-! ## The variables of a separable program -/

namespace Program

variable {m : Program Exact}

section Separable

variable (hm : m.WellFormed) (hs : m.IsSeparable)
include hm hs

/-- The other variables of a constraint that names a continuous one are binary. -/
theorem IsSeparable.isBinary_of_ne {c : Constraint Exact} (hc : c ∈ m.constraints) {v : ℕ}
    (hv : m.isContinuous v = true) (named : v ∈ c.expr.terms.map (·.1)) {t : ℕ × Exact}
    (ht : t ∈ c.expr.terms) (differ : t.1 ≠ v) : m.isBinary t.1 = true := by
  obtain ⟨u, hu, rfl⟩ := List.mem_map.mp named
  rcases isBinary_or_isContinuous (hm.named c hc t ht) with binary | continuous
  · exact binary
  · exact absurd (hs.alone c hc t ht u hu continuous hv) differ

/-- What confines a continuous variable are the constraints that name it. -/
theorem IsSeparable.mem_confining_iff {v : ℕ} (hv : m.isContinuous v = true)
    {e : Constraint Exact × Exact} :
    e ∈ confining m v ↔ e.1 ∈ m.constraints ∧ (v, e.2) ∈ e.1.expr.terms := by
  obtain ⟨c, k⟩ := e
  rw [mem_confining]
  refine and_congr_right fun hc => ⟨fun single => (single?_eq_some single).1, fun ht => ?_⟩
  have only : c.expr.terms.filter (fun t => m.isContinuous t.1) = [(v, k)] := by
    refine LinearExpr.filter_eq_singleton (hm.names c hc) ht fun u hu => ?_
    constructor
    · exact fun continuous => hs.alone c hc u hu (v, k) ht continuous hv
    · intro same
      rw [same]
      exact hv
  unfold single?
  rw [show c.expr.terms.filter (fun (v, _) => m.isContinuous v) = [(v, k)] from only]

/-- What a variable may take depends on the binary variables only. -/
theorem Allows.congr {v : ℕ} (hv : m.isContinuous v = true) {a b : ℕ → ℝ}
    (same : ∀ w, m.isBinary w = true → a w = b w) {r : ℝ} (h : m.Allows a v r) :
    m.Allows b v r where
  admits := h.admits
  holds c hc named := by
    refine (Constraint.holdsAt_congr fun t ht => ?_).mp (h.holds c hc named)
    by_cases own : t.1 = v
    · rw [own, Function.update_self, Function.update_self]
    · rw [Function.update_of_ne own, Function.update_of_ne own]
      exact same _ (hs.isBinary_of_ne hm hc hv named ht own)

/-- The interval that is left to a continuous variable, the bits given: the values that it may
take, with an infinite end only where neither its bounds nor a constraint hold it. -/
theorem IsSeparable.narrows_settling {s : Settling Exact} (mem : s ∈ settlings m)
    {values : Array Exact} {a : ℕ → ℚ}
    (bits : ∀ v, m.isBinary v = true → values.getD v 0 = finite (a v)) :
    Range (s.confining.foldl (fun b e => confine values s.index b e.1 e.2) s.bounds)
        (m.Allows (fun v => (a v : ℝ)) s.index) ∧
      Narrows s.bounds
        (s.confining.foldl (fun b e => confine values s.index b e.1 e.2) s.bounds) s.confining
        (fun r => s.bounds.1.IsLower r ∧ s.bounds.2.IsUpper r) fun r =>
          ∀ e ∈ s.confining,
            e.1.HoldsAt (Function.update (fun v => (a v : ℝ)) s.index r) := by
  have continuous := mem_index_settlings.mp (List.mem_map_of_mem (f := (·.index)) mem)
  obtain ⟨w, hw, kind, settles⟩ := mem_settlings.mp mem
  have confines : s.confining = confining m s.index := by rw [settles]
  have bounds : s.bounds = (w.lower, w.upper) := by rw [settles]
  have start : Range s.bounds fun r => s.bounds.1.IsLower r ∧ s.bounds.2.IsUpper r := by
    rw [bounds]
    exact ⟨hs.lower w (Array.mem_of_getElem? hw), hs.upper w (Array.mem_of_getElem? hw),
      fun r => Iff.rfl⟩
  have readable : ∀ e ∈ s.confining, Readable values s.index a e := by
    intro e he
    obtain ⟨hc, ht⟩ := (hs.mem_confining_iff hm continuous).mp (confines ▸ he)
    exact ⟨hm.isNormal hc (hs.isFinite.constraints _ hc), ht, fun t mem differ =>
      bits _ (hs.isBinary_of_ne hm hc continuous (List.mem_map_of_mem (f := (·.1)) ht) mem differ)⟩
  have narrows := narrows_foldl start readable
  refine ⟨narrows.range.congr fun r => ?_, narrows⟩
  constructor
  · rintro ⟨⟨lower, upper⟩, holds⟩
    refine ⟨fun w' hw' => ?_, fun c hc named => ?_⟩
    · obtain rfl := Option.some.inj (hw.symm.trans hw')
      rw [bounds] at lower upper
      exact ⟨lower, upper, fun binary => nomatch kind.symm.trans binary⟩
    · obtain ⟨⟨v, k⟩, ht, rfl⟩ := List.mem_map.mp named
      exact holds (c, k) (confines ▸ (hs.mem_confining_iff hm continuous).mpr ⟨hc, ht⟩)
  · intro allows
    have admits := allows.admits w hw
    refine ⟨by rw [bounds]; exact ⟨admits.lower, admits.upper⟩, fun e he => ?_⟩
    obtain ⟨hc, ht⟩ := (hs.mem_confining_iff hm continuous).mp (confines ▸ he)
    exact allows.holds e.1 hc (List.mem_map_of_mem (f := (·.1)) ht)

omit hm hs in
/-- A variable can be moved to a value that it may take. -/
theorem FeasibleAt.update {a : ℕ → ℝ} (feasible : m.FeasibleAt a) {v : ℕ} {r : ℝ}
    (allows : m.Allows a v r) : m.FeasibleAt (Function.update a v r) where
  admits w x hx := by
    by_cases own : w = v
    · subst own
      rw [Function.update_self]
      exact allows.admits x hx
    · rw [Function.update_of_ne own]
      exact feasible.admits w x hx
  holds c hc := by
    by_cases named : v ∈ c.expr.terms.map (·.1)
    · exact allows.holds c hc named
    · refine (Constraint.holdsAt_congr fun t ht => ?_).mp (feasible.holds c hc)
      have differ : t.1 ≠ v := fun same => named (same ▸ List.mem_map_of_mem ht)
      rw [Function.update_of_ne differ]

omit hm hs in
theorem FeasibleAt.allows {a : ℕ → ℝ} (feasible : m.FeasibleAt a) (v : ℕ) :
    m.Allows a v (a v) where
  admits w hw := feasible.admits v w hw
  holds c hc _ := by
    rw [Function.update_eq_self]
    exact feasible.holds c hc

/-- Where the end that a preference asks for is infinite, every feasible assignment can be moved
towards it. -/
theorem IsSeparable.movable {s : Settling Exact} (mem : s ∈ settlings m) {values : Array Exact}
    {a : ℕ → ℚ} (bits : ∀ v, m.isBinary v = true → values.getD v 0 = finite (a v)) {p : ℚ}
    (opens : Open p (s.confining.foldl (fun b e => confine values s.index b e.1 e.2) s.bounds))
    {b : ℕ → ℝ} (feasible : m.FeasibleAt b) {step : ℝ} (nonneg : 0 ≤ step) :
    m.FeasibleAt (Function.update b s.index (b s.index + p * step)) := by
  obtain ⟨-, narrows⟩ := hs.narrows_settling hm mem bits
  have continuous := mem_index_settlings.mp (List.mem_map_of_mem (f := (·.index)) mem)
  obtain ⟨w, hw, kind, settles⟩ := mem_settlings.mp mem
  have confines : s.confining = confining m s.index := by rw [settles]
  have bounds : s.bounds = (w.lower, w.upper) := by rw [settles]
  have held := feasible.admits s.index w hw
  -- Moving up is free where no constraint holds the variable down, and the other way round.
  have free : (b s.index ≤ b s.index + p * step ∧ w.upper = top ∧
        ∀ e ∈ s.confining, ¬ holdsDown e.1.sense e.2 = true) ∨
      (b s.index + p * step ≤ b s.index ∧ w.lower = bottom ∧
        ∀ e ∈ s.confining, ¬ holdsUp e.1.sense e.2 = true) := by
    rcases opens with ⟨pos, infinite⟩ | ⟨neg, infinite⟩
    · obtain ⟨upper, down⟩ := narrows.top infinite
      have gain : 0 ≤ (p : ℝ) * step := mul_nonneg (Rat.cast_nonneg.mpr pos.le) nonneg
      exact .inl ⟨by linarith, by rw [bounds] at upper; exact upper, down⟩
    · obtain ⟨lower, up⟩ := narrows.bottom infinite
      have gain : (p : ℝ) * step ≤ 0 :=
        mul_nonpos_of_nonpos_of_nonneg (Rat.cast_nonpos.mpr neg.le) nonneg
      exact .inr ⟨by linarith, by rw [bounds] at lower; exact lower, up⟩
  refine feasible.update ⟨fun w' hw' => ?_, fun c hc named => ?_⟩
  · obtain rfl := Option.some.inj (hw.symm.trans hw')
    refine ⟨?_, ?_, fun binary => nomatch kind.symm.trans binary⟩
    · rcases free with ⟨moved, -, -⟩ | ⟨-, lower, -⟩
      · exact IsLower.mono held.lower moved
      · rw [lower]
        trivial
    · rcases free with ⟨-, upper, -⟩ | ⟨moved, -, -⟩
      · rw [upper]
        trivial
      · exact IsUpper.mono held.upper moved
  · obtain ⟨⟨v, k⟩, ht, rfl⟩ := List.mem_map.mp named
    have normal := hm.isNormal hc (hs.isFinite.constraints c hc)
    have confined := confines ▸ (hs.mem_confining_iff hm continuous (e := (c, k))).mpr ⟨hc, ht⟩
    have now := (Constraint.holdsAt_update_iff normal ht b _).mp
      ((feasible.allows s.index).holds c hc named)
    refine (Constraint.holdsAt_update_iff normal ht b _).mpr ⟨fun up => ?_, fun down => ?_⟩
    · rcases free with ⟨moved, -, -⟩ | ⟨-, -, none⟩
      · exact (now.1 up).trans moved
      · exact absurd up (none _ confined)
    · rcases free with ⟨-, -, none⟩ | ⟨moved, -, -⟩
      · exact absurd down (none _ confined)
      · exact moved.trans (now.2 down)

end Separable

end Program

end Influence
