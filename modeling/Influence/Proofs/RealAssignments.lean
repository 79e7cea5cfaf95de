import Mathlib.Data.Real.Basic
import Influence.Proofs.Building
import Influence.Proofs.CarriedValues

/-!
# Real assignments of a program

A search computes with rationals, but what it is compared with is every assignment of real
numbers.  `Program.FeasibleAt` says that real values respect the bounds, the kinds and the
constraints of a program; on rational values it is the check that the program makes itself
(`isFeasible_iff_feasibleAt`).

`Program.Built` are the programs that building actions make.  Their binary variables lie
between zero and one, and their constraints name each variable once, with a coefficient, and
only variables of the program (`Built.wellFormed`).
-/

namespace Influence

open Extended

/-! ## Ends of intervals -/

namespace Extended

/-- The lower end of an interval lets a number in. -/
def IsLower : Exact → ℝ → Prop
  | bottom, _ => True
  | finite low, r => (low : ℝ) ≤ r
  | _, _ => False

/-- The upper end of an interval lets a number in. -/
def IsUpper : Exact → ℝ → Prop
  | top, _ => True
  | finite high, r => r ≤ (high : ℝ)
  | _, _ => False

@[simp] theorem isLower_finite {low : ℚ} {r : ℝ} :
    IsLower (finite low) r ↔ (low : ℝ) ≤ r := Iff.rfl

@[simp] theorem isUpper_finite {high : ℚ} {r : ℝ} :
    IsUpper (finite high) r ↔ r ≤ (high : ℝ) := Iff.rfl

theorem IsLower.mono {low : Exact} {r r' : ℝ} (h : IsLower low r) (le : r ≤ r') :
    IsLower low r' := by
  cases low with
  | finite low => exact le_trans (isLower_finite.mp h) le
  | bottom => trivial
  | top => exact h.elim
  | notANumber => exact h.elim

theorem IsUpper.mono {high : Exact} {r r' : ℝ} (h : IsUpper high r) (le : r' ≤ r) :
    IsUpper high r' := by
  cases high with
  | finite high => exact le_trans le (isUpper_finite.mp h)
  | top => trivial
  | bottom => exact h.elim
  | notANumber => exact h.elim

theorem isLower_rat_iff {low : Exact} {q : ℚ} : IsLower low (q : ℝ) ↔ low ≤ finite q := by
  cases low with
  | finite low => exact Rat.cast_le
  | bottom => exact Iff.rfl
  | top => exact Iff.rfl
  | notANumber => exact Iff.rfl

theorem isUpper_rat_iff {high : Exact} {q : ℚ} : IsUpper high (q : ℝ) ↔ finite q ≤ high := by
  cases high with
  | finite high => exact Rat.cast_le
  | bottom => exact Iff.rfl
  | top => exact Iff.rfl
  | notANumber => exact Iff.rfl

end Extended

/-! ## Values -/

namespace LinearExpr

/-- The value of a list of terms at a real assignment. -/
def termsReal (ts : List (ℕ × Exact)) (a : ℕ → ℝ) : ℝ :=
  (ts.map fun t => (t.2.rational : ℝ) * a t.1).sum

/-- The value at a real assignment. -/
def realAt (e : LinearExpr Exact) (a : ℕ → ℝ) : ℝ :=
  (e.constant.rational : ℝ) + termsReal e.terms a

@[simp] theorem termsReal_cons (t : ℕ × Exact) (ts : List (ℕ × Exact)) (a : ℕ → ℝ) :
    termsReal (t :: ts) a = (t.2.rational : ℝ) * a t.1 + termsReal ts a := by
  simp [termsReal]

theorem termsReal_congr {ts : List (ℕ × Exact)} {a b : ℕ → ℝ} (h : ∀ t ∈ ts, a t.1 = b t.1) :
    termsReal ts a = termsReal ts b :=
  congrArg List.sum (List.map_congr_left fun t ht => by rw [h t ht])

theorem termsReal_cast (ts : List (ℕ × Exact)) (b : ℕ → ℚ) :
    termsReal ts (fun v => (b v : ℝ)) = (termsAt ts b : ℝ) := by
  induction ts with
  | nil => simp [termsReal]
  | cons t ts ih => simp [ih]

/-- On rational values the real value is the rational one. -/
theorem realAt_cast (e : LinearExpr Exact) (b : ℕ → ℚ) :
    e.realAt (fun v => (b v : ℝ)) = (e.valueAt b : ℝ) := by
  rw [realAt, termsReal_cast, valueAt, Rat.cast_add]

theorem termsReal_eq_add {ts : List (ℕ × Exact)} (names : (ts.map (·.1)).Nodup) {t : ℕ × Exact}
    (ht : t ∈ ts) (a : ℕ → ℝ) :
    termsReal ts a =
      (t.2.rational : ℝ) * a t.1 + termsReal (ts.filter fun u => u.1 ≠ t.1) a :=
  sum_map_eq_add names ht fun u => (u.2.rational : ℝ) * a u.1

theorem realAt_congr {e : LinearExpr Exact} {a b : ℕ → ℝ} (h : ∀ t ∈ e.terms, a t.1 = b t.1) :
    e.realAt a = e.realAt b := by
  rw [realAt, realAt, termsReal_congr h]

end LinearExpr

/-! ## Feasibility -/

/-- A constraint holds of real values. -/
def Constraint.HoldsAt (c : Constraint Exact) (a : ℕ → ℝ) : Prop :=
  c.sense.Compares (c.expr.realAt a) (c.rhs.rational : ℝ)

/-- A real number lies in the bounds of a variable, and is zero or one where it is binary. -/
structure Variable.AdmitsReal (v : Variable Exact) (r : ℝ) : Prop where
  lower : v.lower.IsLower r
  upper : v.upper.IsUpper r
  whole : v.kind = .binary → r = 0 ∨ r = 1

/-- Real values that every variable admits and of which every constraint holds. -/
structure Program.FeasibleAt (m : Program Exact) (a : ℕ → ℝ) : Prop where
  admits : ∀ (v : ℕ) (w : Variable Exact), m.vars[v]? = some w → w.AdmitsReal (a v)
  holds : ∀ c ∈ m.constraints, c.HoldsAt a

theorem Sense.compares_cast {s : Sense} {x y : ℚ} :
    s.Compares (x : ℝ) (y : ℝ) ↔ s.Compares x y := by
  cases s with
  | le => exact Rat.cast_le
  | ge => exact Rat.cast_le
  | eq => exact Rat.cast_inj

theorem Constraint.holdsAt_congr {c : Constraint Exact} {a b : ℕ → ℝ}
    (h : ∀ t ∈ c.expr.terms, a t.1 = b t.1) : c.HoldsAt a ↔ c.HoldsAt b := by
  rw [HoldsAt, HoldsAt, LinearExpr.realAt_congr h]

/-- On finite values a constraint that is satisfied exactly is one that holds. -/
theorem Constraint.isSatisfied_iff_holdsAt {c : Constraint Exact} (hc : c.IsFinite)
    {values : Array Exact} {a : ℕ → ℚ}
    (hv : ∀ t ∈ c.expr.terms, values.getD t.1 0 = finite (a t.1)) :
    c.isSatisfied values 0 = true ↔ c.HoldsAt fun v => (a v : ℝ) := by
  rw [zero_eq_finite, isSatisfied_iff hc hv, slackAt, Sense.passes_zero_iff, HoldsAt,
    LinearExpr.realAt_cast, Sense.compares_cast]

namespace Program

/-- The numbers of the constraints and of the objective are finite. -/
structure IsFinite (m : Program Exact) : Prop where
  constraints : ∀ c ∈ m.constraints, c.IsFinite
  objective : m.objective.IsFinite

/-- What building actions keep: binary variables lie between zero and one, and terms name each
variable of the program at most once, with a coefficient. -/
structure WellFormed (m : Program Exact) : Prop where
  bits : ∀ v ∈ m.vars, v.kind = .binary → v.lower = 0 ∧ v.upper = 1
  names : ∀ c ∈ m.constraints, (c.expr.terms.map (·.1)).Nodup
  coefficients : ∀ c ∈ m.constraints, ∀ t ∈ c.expr.terms, (t.2 == 0) = false
  constant : ∀ c ∈ m.constraints, Scalar.isFinite c.expr.constant = true → c.expr.constant = 0
  named : ∀ c ∈ m.constraints, ∀ t ∈ c.expr.terms, t.1 < m.vars.size
  objectiveNames : (m.objective.terms.map (·.1)).Nodup
  objectiveNamed : ∀ t ∈ m.objective.terms, t.1 < m.vars.size

theorem WellFormed.isNormal {m : Program Exact} (hm : m.WellFormed) {c : Constraint Exact}
    (hc : c ∈ m.constraints) (hf : c.IsFinite) : c.IsNormal where
  toIsFinite := hf
  constant := hm.constant c hc hf.expr.constant
  names := hm.names c hc
  coefficients t ht := by
    have nonzero := hm.coefficients c hc t ht
    rw [← finite_rational (hf.expr.terms t ht), zero_eq_finite, finite_beq] at nonzero
    simpa using nonzero

/-- On finite values the check of a program at tolerance zero is feasibility. -/
theorem isFeasible_iff_feasibleAt {m : Program Exact} (hm : m.WellFormed) (hf : m.IsFinite)
    {values : Array Exact} {a : ℕ → ℚ} (size : values.size = m.vars.size)
    (hv : ∀ v < m.vars.size, values.getD v 0 = finite (a v)) :
    m.isFeasible values 0 = true ↔ m.FeasibleAt fun v => (a v : ℝ) := by
  have admits {i : ℕ} {w : Variable Exact} (hw : m.vars[i]? = some w) :
      Variable.admits w (values.getD i Scalar.notANumber) 0 = true ↔
        w.AdmitsReal (a i : ℝ) := by
    obtain ⟨inside, -⟩ := Array.getElem?_eq_some_iff.mp hw
    have value : values.getD i Scalar.notANumber = finite (a i) := by
      rw [← hv i inside, Array.getD_eq_getD_getElem?, Array.getD_eq_getD_getElem?,
        Array.getElem?_eq_getElem (size ▸ inside), Option.getD_some, Option.getD_some]
    rw [value]
    cases kind : w.kind with
    | binary =>
      obtain ⟨lower, upper⟩ := hm.bits w (Array.mem_of_getElem? hw) kind
      obtain ⟨k, l, u, name⟩ := w
      obtain rfl : k = .binary := kind
      obtain rfl : l = 0 := lower
      obtain rfl : u = 1 := upper
      rw [admits_binary_iff, zero_eq_finite, one_eq_finite]
      constructor
      · intro whole
        have bit : (a i : ℝ) = 0 ∨ (a i : ℝ) = 1 := by
          rcases whole with h | h <;> [left; right] <;>
            rw [show a i = _ from congrArg rational h] <;> simp
        refine ⟨?_, ?_, fun _ => bit⟩
        · change ((0 : ℚ) : ℝ) ≤ _
          rcases bit with h | h <;> rw [h] <;> simp
        · change _ ≤ ((1 : ℚ) : ℝ)
          rcases bit with h | h <;> rw [h] <;> simp
      · intro h
        rcases h.whole rfl with h | h
        · exact .inl (congrArg finite (by exact_mod_cast h))
        · exact .inr (congrArg finite (by exact_mod_cast h))
    | continuous =>
      have below : w.lower - 0 = w.lower := by
        cases w.lower with
        | finite low => simp [zero_eq_finite]
        | _ => rfl
      have above : w.upper + 0 = w.upper := by
        cases w.upper with
        | finite high => simp [zero_eq_finite]
        | _ => rfl
      simp only [Variable.admits, kind, below, above, beq_self_eq_true, Bool.true_or,
        Bool.and_true, Bool.and_eq_true, decide_eq_true_eq, ← isLower_rat_iff, ← isUpper_rat_iff]
      constructor
      · rintro ⟨low, high⟩
        exact ⟨low, high, fun binary => by cases kind.symm.trans binary⟩
      · intro h
        exact ⟨h.lower, h.upper⟩
  have satisfied {c : Constraint Exact} (hc : c ∈ m.constraints) :
      c.isSatisfied values 0 = true ↔ c.HoldsAt fun v => (a v : ℝ) :=
    Constraint.isSatisfied_iff_holdsAt (hf.constraints c hc) fun t ht => hv _ (hm.named c hc t ht)
  rw [isFeasible_iff]
  constructor
  · rintro ⟨-, bounds, constraints⟩
    exact ⟨fun i w hw => (admits hw).mp (bounds i w hw),
      fun c hc => (satisfied hc).mp (constraints c hc)⟩
  · intro h
    exact ⟨size, fun i w hw => (admits hw).mpr (h.admits i w hw),
      fun c hc => (satisfied hc).mpr (h.holds c hc)⟩

/-! ## Programs that can be built -/

/-- The programs that building actions make from the empty one.  Only variables that a program
has can be named. -/
inductive Built : Program Exact → Prop
  | empty : Built .empty
  | continuous {m m' : Program Exact} {lower upper : Exact} {name : Option String} {v : ℕ}
      (built : Built m) (run : Succeeds (addContinuous lower upper name) m v m') : Built m'
  | binary {m m' : Program Exact} {name : Option String} {v : ℕ} (built : Built m)
      (run : Succeeds (addBinary name) m v m') : Built m'
  | constraint {m m' : Program Exact} {expr : LinearExpr Exact} {sense : Sense} {rhs : Exact}
      {isLazy : Bool} {i : ℕ} (built : Built m) (named : ∀ t ∈ expr.terms, t.1 < m.vars.size)
      (run : Succeeds (constrain expr sense rhs isLazy) m i m') : Built m'
  | objective {m : Program Exact} {direction : Direction} {expr : LinearExpr Exact}
      (built : Built m) (named : ∀ t ∈ expr.terms, t.1 < m.vars.size) :
      Built (m.withObjective direction expr)

private theorem wellFormed_empty : WellFormed .empty where
  bits := by simp [Program.empty]
  names := by simp [Program.empty]
  coefficients := by simp [Program.empty]
  constant := by simp [Program.empty]
  named := by simp [Program.empty]
  objectiveNames := by simp [Program.empty, LinearExpr.zero]
  objectiveNamed := by simp [Program.empty, LinearExpr.zero]

private theorem WellFormed.push {m : Program Exact} (hm : m.WellFormed) {w : Variable Exact}
    (hw : w.kind = .binary → w.lower = 0 ∧ w.upper = 1) :
    WellFormed { m with vars := m.vars.push w } where
  bits v hv kind := by
    rcases Array.mem_push.mp hv with hv | rfl
    · exact hm.bits v hv kind
    · exact hw kind
  names := hm.names
  coefficients := hm.coefficients
  constant := hm.constant
  named c hc t ht := by
    have inside := hm.named c hc t ht
    rw [Array.size_push]
    omega
  objectiveNames := hm.objectiveNames
  objectiveNamed t ht := by
    have inside := hm.objectiveNamed t ht
    rw [Array.size_push]
    omega

private theorem WellFormed.constrain {m : Program Exact} (hm : m.WellFormed)
    {e : LinearExpr Exact} (named : ∀ t ∈ e.terms, t.1 < m.vars.size) (s : Sense) (r : Exact)
    (isLazy : Bool) : (m.withConstraint (normalized e s r isLazy)).WellFormed := by
  have split {P : Constraint Exact → Prop} (old : ∀ c ∈ m.constraints, P c)
      (new : P (normalized e s r isLazy)) :
      ∀ c ∈ (m.withConstraint (normalized e s r isLazy)).constraints, P c := by
    intro c hc
    rcases Array.mem_push.mp hc with hc | rfl
    · exact old c hc
    · exact new
  exact
    { bits := hm.bits
      names := split hm.names (LinearExpr.nodup_compact e)
      coefficients := split hm.coefficients fun t ht => by
        simpa using (List.mem_filter.mp ht).2
      constant := split hm.constant fun isFinite => by
        change e.constant + -e.constant = 0
        change Scalar.isFinite (e.constant + -e.constant) = true at isFinite
        cases hc : e.constant with
        | finite x => rw [finite_neg, finite_add, add_neg_cancel, zero_eq_finite]
        | bottom => rw [hc] at isFinite; cases isFinite
        | top => rw [hc] at isFinite; cases isFinite
        | notANumber => rw [hc] at isFinite; cases isFinite
      named := split hm.named fun t ht => by
        obtain ⟨u, hu, same⟩ := List.mem_map.mp (mem_terms_normalized ht)
        exact same ▸ named u hu
      objectiveNames := hm.objectiveNames
      objectiveNamed := hm.objectiveNamed }

/-- Every program that can be built is well formed. -/
theorem Built.wellFormed {m : Program Exact} (h : m.Built) : m.WellFormed := by
  induction h with
  | empty => exact wellFormed_empty
  | continuous _ run hm =>
    obtain ⟨-, rfl⟩ := eq_push_of_addVariable run
    exact hm.push nofun
  | binary _ run hm =>
    obtain ⟨-, rfl⟩ := eq_push_of_addVariable run
    exact hm.push fun _ => ⟨rfl, rfl⟩
  | constraint _ named run hm =>
    obtain ⟨-, rfl⟩ := eq_withConstraint_of_constrain run
    exact hm.constrain named _ _ _
  | @objective m direction e _ named hm =>
    exact
      { hm with
        objectiveNames := LinearExpr.nodup_compact e
        objectiveNamed := fun t ht => by
          obtain ⟨u, hu, same⟩ := List.mem_map.mp (LinearExpr.mem_terms_of_mem_compact ht)
          exact same ▸ named u hu }

end Program

end Influence
