import Mathlib.Data.Rat.Floor
import Mathlib.Tactic.NormNum
import Influence.Program.Basic
import Influence.Proofs.LinearExpr

/-!
# Feasible assignments

A finite constraint holds of a finite assignment when its slack, a rational, is on the right
side of zero up to the tolerance (`isSatisfied_iff`), and `normalized` keeps the slack of the
comparison that it was made from (`slackAt_normalized`).  `isFeasible_iff` takes
`Program.isFeasible` apart into its checks; at tolerance zero a binary variable admits zero
and one (`admits_binary_iff`) and a bounded one what lies in its bounds
(`admits_bounded_iff`).
-/

namespace Influence

open Extended

/-- The rational assignment that an array of finite values is. -/
def reading (values : Array Exact) (v : ℕ) : ℚ := (values.getD v 0).rational

/-- The array of the first values of a rational assignment. -/
def valuesOf (n : ℕ) (a : ℕ → ℚ) : Array Exact := Array.ofFn fun i : Fin n => finite (a i)

@[simp] theorem size_valuesOf (n : ℕ) (a : ℕ → ℚ) : (valuesOf n a).size = n := Array.size_ofFn

theorem getD_valuesOf {n v : ℕ} (hv : v < n) (a : ℕ → ℚ) :
    (valuesOf n a).getD v 0 = finite (a v) := by
  simp [valuesOf, Array.getD, hv]

theorem reading_valuesOf {n v : ℕ} (hv : v < n) (a : ℕ → ℚ) : reading (valuesOf n a) v = a v := by
  rw [reading, getD_valuesOf hv, rational_finite]

section Values

variable {α : Type} [Scalar α]

theorem getD_set_self {values : Array α} {v : ℕ} (hv : v < values.size) (y : α) :
    (values.setIfInBounds v y).getD v 0 = y := by
  rw [Array.getD_eq_getD_getElem?, Array.getElem?_setIfInBounds_self_of_lt hv, Option.getD_some]

theorem getD_set_of_ne {values : Array α} {v w : ℕ} (differ : w ≠ v) (y : α) :
    (values.setIfInBounds v y).getD w 0 = values.getD w 0 := by
  rw [Array.getD_eq_getD_getElem?, Array.getElem?_setIfInBounds_ne differ.symm,
    ← Array.getD_eq_getD_getElem?]

omit [Scalar α] in
theorem size_foldl_set (es : List (ℕ × α)) (values : Array α) :
    (es.foldl (fun (values : Array α) e => values.setIfInBounds e.1 e.2) values).size =
      values.size := by
  induction es generalizing values with
  | nil => rfl
  | cons e es ih => rw [List.foldl_cons, ih, Array.size_setIfInBounds]

/-- Values set one after the other, where every position gets one value only. -/
theorem getD_foldl_set {es : List (ℕ × α)} {t : ℕ → α} (h : ∀ e ∈ es, e.2 = t e.1)
    {values : Array α} (inside : ∀ e ∈ es, e.1 < values.size) (v : ℕ) :
    (es.foldl (fun (values : Array α) e => values.setIfInBounds e.1 e.2) values).getD v 0 =
      if v ∈ es.map (·.1) then t v else values.getD v 0 := by
  induction es generalizing values with
  | nil => rfl
  | cons e es ih =>
    obtain ⟨own, others⟩ := List.forall_mem_cons.mp h
    obtain ⟨first, rest⟩ := List.forall_mem_cons.mp inside
    rw [List.foldl_cons, ih others (by simpa using rest), List.map_cons]
    by_cases later : v ∈ es.map (·.1)
    · rw [if_pos later, if_pos (List.mem_cons_of_mem _ later)]
    · rw [if_neg later]
      by_cases same : v = e.1
      · subst same
        rw [if_pos List.mem_cons_self, getD_set_self first, own]
      · rw [if_neg (by simp [same, later]), getD_set_of_ne same]

end Values

/-- A slack that a comparison lets pass. -/
def Sense.Passes (s : Sense) (tolerance slack : ℚ) : Prop :=
  match s with
  | .le => slack ≤ tolerance
  | .ge => -tolerance ≤ slack
  | .eq => |slack| ≤ tolerance

/-- Two numbers compare as a constraint asks. -/
def Sense.Compares {K : Type} [LE K] (s : Sense) (left right : K) : Prop :=
  match s with
  | .le => left ≤ right
  | .ge => right ≤ left
  | .eq => left = right

theorem Sense.passes_zero_iff {s : Sense} {left right : ℚ} :
    s.Passes 0 (left - right) ↔ s.Compares left right := by
  cases s with
  | le => exact sub_nonpos
  | ge => simp [Sense.Passes, Sense.Compares]
  | eq => simp [Sense.Passes, Sense.Compares, sub_eq_zero]

namespace Constraint

/-- All numbers of a constraint are finite. -/
structure IsFinite (c : Constraint Exact) : Prop where
  expr : c.expr.IsFinite
  rhs : Scalar.isFinite c.rhs = true

/-- The slack at a rational assignment. -/
def slackAt (c : Constraint Exact) (a : ℕ → ℚ) : ℚ := c.expr.valueAt a - c.rhs.rational

theorem slack_eq {c : Constraint Exact} (hc : c.IsFinite) {values : Array Exact} {a : ℕ → ℚ}
    (hv : ∀ t ∈ c.expr.terms, values.getD t.1 0 = finite (a t.1)) :
    c.slack values = finite (c.slackAt a) := by
  rw [slack, LinearExpr.evaluate_eq hc.expr hv, ← finite_rational hc.rhs, finite_sub]
  rfl

theorem isSatisfied_iff {c : Constraint Exact} (hc : c.IsFinite) {values : Array Exact}
    {a : ℕ → ℚ} (hv : ∀ t ∈ c.expr.terms, values.getD t.1 0 = finite (a t.1)) (t : ℚ) :
    c.isSatisfied values (finite t) = true ↔ c.sense.Passes t (c.slackAt a) := by
  unfold isSatisfied
  rw [slack_eq hc hv]
  cases c.sense <;> simp [Sense.Passes]

end Constraint

/-- Finite numbers, no constant on the left, and every variable named once with a
coefficient. -/
structure Constraint.IsNormal (c : Constraint Exact) : Prop extends c.IsFinite where
  constant : c.expr.constant = 0
  names : (c.expr.terms.map (·.1)).Nodup
  coefficients : ∀ t ∈ c.expr.terms, t.2.rational ≠ 0

namespace Program

theorem not_isContinuous_of_isBinary {α : Type} {m : Program α} {v : ℕ}
    (hv : m.isBinary v = true) :
    ¬ m.isContinuous v = true := by
  rw [isBinary] at hv
  rw [isContinuous]
  cases hw : m.vars[v]? with
  | none => exact Bool.false_ne_true
  | some w =>
    rw [hw, Option.any_some, beq_iff_eq] at hv
    rw [Option.any_some, beq_iff_eq, hv]
    decide

theorem isBinary_or_isContinuous {α : Type} {m : Program α} {v : ℕ} (hv : v < m.vars.size) :
    m.isBinary v = true ∨ m.isContinuous v = true := by
  rw [isBinary, isContinuous, Array.getElem?_eq_getElem hv, Option.any_some, Option.any_some,
    beq_iff_eq, beq_iff_eq]
  cases m.vars[v].kind with
  | binary => exact .inl rfl
  | continuous => exact .inr rfl

theorem normalized_sense (e : LinearExpr Exact) (s : Sense) (r : Exact) (isLazy : Bool) :
    (normalized e s r isLazy).sense = s := rfl

theorem isFinite_normalized {e : LinearExpr Exact} (he : e.IsFinite) (s : Sense) (r : ℚ)
    (isLazy : Bool) : (normalized e s (finite r) isLazy).IsFinite where
  expr := by
    refine ⟨?_, he.compact.terms⟩
    change Scalar.isFinite (e.constant + -e.constant) = true
    rw [← finite_rational he.constant, finite_neg, finite_add]
    rfl
  rhs := by
    change Scalar.isFinite (finite r - e.constant) = true
    rw [← finite_rational he.constant, finite_sub]
    rfl

/-- Moving the constant to the right and compacting the terms keep the slack. -/
theorem slackAt_normalized {e : LinearExpr Exact} (he : e.IsFinite) (s : Sense) (r : ℚ)
    (isLazy : Bool) (a : ℕ → ℚ) :
    (normalized e s (finite r) isLazy).slackAt a = e.valueAt a - r := by
  have left : (e.compact.addConstant (-e.constant)).valueAt a =
      e.valueAt a - e.constant.rational := by
    have h := LinearExpr.valueAt_compact he a
    change (e.constant + -e.constant).rational + LinearExpr.termsAt e.compact.terms a = _
    change e.constant.rational + LinearExpr.termsAt e.compact.terms a = _ at h
    rw [← h, ← finite_rational he.constant, finite_neg, finite_add, rational_finite,
      rational_finite]
    ring
  have right : (finite r - e.constant : Exact).rational = r - e.constant.rational := by
    rw [← finite_rational he.constant, finite_sub, rational_finite, rational_finite]
  change (e.compact.addConstant (-e.constant)).valueAt a - (finite r - e.constant).rational = _
  rw [left, right]
  ring

theorem mem_terms_normalized {α : Type} [Scalar α] {e : LinearExpr α} {s : Sense} {r : α}
    {isLazy : Bool} {t : ℕ × α} (ht : t ∈ (normalized e s r isLazy).expr.terms) :
    t.1 ∈ e.terms.map (·.1) := LinearExpr.mem_terms_of_mem_compact ht

theorem isNormal_normalized {e : LinearExpr Exact} (he : e.IsFinite) (s : Sense) (r : ℚ)
    (isLazy : Bool) : (normalized e s (finite r) isLazy).IsNormal where
  toIsFinite := isFinite_normalized he s r isLazy
  constant := by
    change e.constant + -e.constant = 0
    rw [← finite_rational he.constant, finite_neg, finite_add, add_neg_cancel]
    rfl
  names := LinearExpr.nodup_compact e
  coefficients t ht := by
    have nonzero : (!(t.2 == 0)) = true := (List.mem_filter.mp ht).2
    rw [← finite_rational (he.compact.terms t ht), zero_eq_finite, finite_beq] at nonzero
    simpa using nonzero

/-- A comparison holds of a finite assignment when its slack passes. -/
theorem isSatisfied_normalized_iff {e : LinearExpr Exact} (he : e.IsFinite) {s : Sense} {r : ℚ}
    {isLazy : Bool} {values : Array Exact} {a : ℕ → ℚ}
    (hv : ∀ t ∈ e.terms, values.getD t.1 0 = finite (a t.1)) (t : ℚ) :
    (normalized e s (finite r) isLazy).isSatisfied values (finite t) = true ↔
      s.Passes t (e.valueAt a - r) := by
  have named : ∀ u ∈ (normalized e s (finite r) isLazy).expr.terms,
      values.getD u.1 0 = finite (a u.1) := by
    intro u hu
    obtain ⟨w, hw, same⟩ := List.mem_map.mp (mem_terms_normalized hu)
    exact same ▸ hv w hw
  rw [Constraint.isSatisfied_iff (isFinite_normalized he s r isLazy) named,
    slackAt_normalized he, normalized_sense]

/-! ## The checks of a program -/

private theorem violations_eq_nil_iff {m : Program Exact} {values : Array Exact}
    {tolerance : Exact} :
    m.violations values tolerance = [] ↔
      (∀ i v, m.vars[i]? = some v →
        Variable.admits v (values.getD i Scalar.notANumber) tolerance = true) ∧
      ∀ c ∈ m.constraints, c.isSatisfied values tolerance = true := by
  unfold violations
  rw [List.append_eq_nil_iff, List.filterMap_eq_nil_iff, List.filterMap_eq_nil_iff]
  refine and_congr ⟨fun h i v hv => ?_, fun h x hx => ?_⟩ ⟨fun h c hc => ?_, fun h x hx => ?_⟩
  · have member : (v, i) ∈ m.vars.toList.zipIdx := by
      rw [List.mem_zipIdx_iff_getElem?, Array.getElem?_toList]
      exact hv
    simpa using h _ member
  · obtain ⟨v, i⟩ := x
    rw [List.mem_zipIdx_iff_getElem?, Array.getElem?_toList] at hx
    simpa using h i v hx
  · obtain ⟨i, hi⟩ := List.getElem?_of_mem (Array.mem_toList_iff.mpr hc)
    have member : (c, i) ∈ m.constraints.toList.zipIdx :=
      List.mem_zipIdx_iff_getElem?.mpr hi
    simpa using h _ member
  · obtain ⟨c, i⟩ := x
    have hc := List.mem_of_getElem? (List.mem_zipIdx_iff_getElem?.mp hx)
    simpa using h c (Array.mem_toList_iff.mp hc)

theorem isFeasible_iff {m : Program Exact} {values : Array Exact} {tolerance : Exact} :
    m.isFeasible values tolerance = true ↔
      values.size = m.vars.size ∧
      (∀ i v, m.vars[i]? = some v →
        Variable.admits v (values.getD i Scalar.notANumber) tolerance = true) ∧
      ∀ c ∈ m.constraints, c.isSatisfied values tolerance = true := by
  rw [isFeasible, Bool.and_eq_true, beq_iff_eq, List.isEmpty_iff, violations_eq_nil_iff]

/-! ## Values that a variable admits -/

private theorem sub_zero_eq (x : ℚ) : (finite x - 0 : Exact) = finite x := by
  rw [zero_eq_finite, finite_sub, sub_zero]

private theorem add_zero_eq (x : ℚ) : (finite x + 0 : Exact) = finite x := by
  rw [zero_eq_finite, finite_add, add_zero]

theorem admits_bounded_iff {low high : ℚ} {name : Option String} {x : Exact} :
    Variable.admits ⟨.continuous, finite low, finite high, name⟩ x 0 = true ↔
      ∃ r : ℚ, x = finite r ∧ low ≤ r ∧ r ≤ high := by
  simp only [Variable.admits, sub_zero_eq, add_zero_eq, beq_self_eq_true, Bool.true_or,
    Bool.and_true, Bool.and_eq_true, decide_eq_true_eq]
  constructor
  · rintro ⟨hlow, hhigh⟩
    have hx := finite_rational (isFinite_of_between hlow hhigh)
    rw [← hx] at hlow hhigh
    exact ⟨x.rational, hx.symm, hlow, hhigh⟩
  · rintro ⟨r, rfl, hlow, hhigh⟩
    exact ⟨hlow, hhigh⟩

private theorem round_finite (x : ℚ) (hx : 0 ≤ x) :
    Scalar.round (finite x : Exact) = finite ((⌊x + 1 / 2⌋ : ℤ) : ℚ) :=
  congrArg finite (nearest_of_nonneg hx)

/-- Whole and between zero and one: zero or one. -/
theorem admits_binary_iff {name : Option String} {x : Exact} :
    Variable.admits ⟨.binary, 0, 1, name⟩ x 0 = true ↔ x = 0 ∨ x = 1 := by
  have kind : ((VarKind.binary == VarKind.continuous) = false) := rfl
  simp only [Variable.admits, zero_eq_finite, one_eq_finite, finite_sub, finite_add, sub_zero,
    add_zero, kind, Bool.false_or, Bool.and_eq_true, decide_eq_true_eq]
  constructor
  · rintro ⟨⟨hlow, hhigh⟩, whole⟩
    have hx := finite_rational (isFinite_of_between hlow hhigh)
    rw [← hx] at hlow hhigh whole ⊢
    generalize x.rational = r at *
    rw [finite_le] at hlow hhigh
    rw [round_finite r hlow, finite_sub, abs_finite, finite_le] at whole
    have integral : r = (⌊r + 1 / 2⌋ : ℤ) := by
      have := abs_eq_zero.mp (le_antisymm whole (abs_nonneg _))
      linarith
    generalize ⌊r + 1 / 2⌋ = n at integral
    subst integral
    have low : 0 ≤ n := by exact_mod_cast hlow
    have high : n ≤ 1 := by exact_mod_cast hhigh
    rcases (by omega : n = 0 ∨ n = 1) with rfl | rfl
    · exact .inl (by norm_num)
    · exact .inr (by norm_num)
  · rintro (rfl | rfl)
    · refine ⟨⟨(le_refl 0 : (0 : ℚ) ≤ 0), (zero_le_one : (0 : ℚ) ≤ 1)⟩, ?_⟩
      rw [round_finite 0 le_rfl, finite_sub, abs_finite, finite_le]
      norm_num
    · refine ⟨⟨(zero_le_one : (0 : ℚ) ≤ 1), (le_refl 1 : (1 : ℚ) ≤ 1)⟩, ?_⟩
      rw [round_finite 1 zero_le_one, finite_sub, abs_finite, finite_le]
      norm_num

/-- What a variable with finite bounds admits at one tolerance it admits at every larger one. -/
theorem admits_mono {kind : VarKind} {low high x s t : ℚ} {name : Option String} (le : s ≤ t)
    (h : Variable.admits ⟨kind, finite low, finite high, name⟩ (finite x) (finite s) = true) :
    Variable.admits ⟨kind, finite low, finite high, name⟩ (finite x) (finite t) = true := by
  have rounded : Scalar.round (finite x : Exact) = finite (nearest x) := rfl
  simp only [Variable.admits, rounded, finite_sub, finite_add, abs_finite, finite_le,
    Bool.and_eq_true, Bool.or_eq_true, decide_eq_true_eq] at h ⊢
  rcases h with ⟨⟨above, below⟩, whole⟩
  exact ⟨⟨(sub_le_sub_left le low).trans above, below.trans (add_le_add_right le high)⟩,
    whole.imp_right (le_trans · le)⟩

end Program

end Influence
