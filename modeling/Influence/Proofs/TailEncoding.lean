import Influence.Proofs.ExpectedUtility
import Influence.Proofs.Spread

/-!
# The encoding of the tail objective
-/

namespace Influence

open Extended Program

/-! ## Programs that grow -/

/-- From a position on the values are admitted by given variables, and they satisfy given
constraints. -/
structure Fits (values : Array Exact) (base : ℕ) (vs : List (Variable Exact))
    (cs : List (Constraint Exact)) : Prop where
  admits : ∀ i v, vs[i]? = some v →
    Variable.admits v (values.getD (base + i) Scalar.notANumber) 0 = true
  satisfied : ∀ c ∈ cs, c.isSatisfied values 0 = true

theorem fits_nil {values : Array Exact} {base : ℕ} : Fits values base [] [] where
  admits i v h := by cases h
  satisfied c hc := by cases hc

theorem fits_append {values : Array Exact} {base : ℕ} {vs ws : List (Variable Exact)}
    {cs ds : List (Constraint Exact)} : Fits values base (vs ++ ws) (cs ++ ds) ↔
      Fits values base vs cs ∧ Fits values (base + vs.length) ws ds := by
  constructor
  · rintro ⟨admits, satisfied⟩
    rw [List.forall_mem_append] at satisfied
    refine ⟨⟨fun i v hi => admits i v ?_, satisfied.1⟩, fun i v hi => ?_, satisfied.2⟩
    · rw [List.getElem?_append_left (List.getElem?_eq_some_iff.mp hi).1, hi]
    · rw [Nat.add_assoc]
      refine admits (vs.length + i) v ?_
      rw [List.getElem?_append_right (Nat.le_add_right _ _), Nat.add_sub_cancel_left, hi]
  · rintro ⟨first, second⟩
    refine ⟨fun i v hi => ?_, List.forall_mem_append.mpr ⟨first.satisfied, second.satisfied⟩⟩
    by_cases inside : i < vs.length
    · exact first.admits i v (by rwa [List.getElem?_append_left inside] at hi)
    · have beyond := Nat.le_of_not_lt inside
      rw [List.getElem?_append_right beyond] at hi
      have := second.admits (i - vs.length) v hi
      rwa [Nat.add_assoc, Nat.add_sub_cancel' beyond] at this

/-- What fits a whole program passes its checks. -/
private theorem fits_program_iff {m : Program Exact} {values : Array Exact} :
    Fits values 0 m.vars.toList m.constraints.toList ↔
      (∀ i v, m.vars[i]? = some v →
        Variable.admits v (values.getD i Scalar.notANumber) 0 = true) ∧
      ∀ c ∈ m.constraints, c.isSatisfied values 0 = true := by
  refine ⟨fun ⟨admits, satisfied⟩ => ⟨fun i v hv => ?_, fun c hc => ?_⟩,
    fun ⟨admits, satisfied⟩ => ⟨fun i v hv => ?_, fun c hc => ?_⟩⟩
  · have := admits i v (by rwa [Array.getElem?_toList])
    rwa [Nat.zero_add] at this
  · exact satisfied c (Array.mem_toList_iff.mpr hc)
  · rw [Nat.zero_add]
    exact admits i v (by rwa [Array.getElem?_toList] at hv)
  · exact satisfied c (Array.mem_toList_iff.mp hc)

/-- Feasible for a program that grew is what fits the old part and the new one. -/
theorem Program.Grows.isFeasible_iff {m m' : Program Exact} {vs : List (Variable Exact)}
    {cs : List (Constraint Exact)} (h : Grows m m' vs cs) {values : Array Exact} :
    m'.isFeasible values 0 = true ↔ values.size = m.vars.size + vs.length ∧
      Fits values 0 m.vars.toList m.constraints.toList ∧ Fits values m.vars.size vs cs := by
  have length : m.vars.toList.length = m.vars.size := Array.length_toList
  rw [Program.isFeasible_iff, ← fits_program_iff, h.size, h.vars, h.constraints, fits_append,
    Nat.zero_add, length]

/-- What fits the variables and constraints before those of the objective. -/
theorem Encoding.fits_iff {d : Diagram Exact} {o : PathVariableOptions Exact} {isLazy : Bool}
    {z : DecisionVariables} {x : PathVariables Exact} {m : Program Exact}
    (enc : Encoding d o isLazy z x m) (hn : d.Normalized)
    (cut : o.probabilityCut = true ∨ isLazy = true) (small : z.vars.length < Word.count64)
    {values : Array Exact} (size : z.vars.length + x.vars.length ≤ values.size) :
    Fits values 0 m.vars.toList m.constraints.toList ↔
      IsAssignment z x values ∧ Satisfies d o z x 0 (reading values) := by
  rw [fits_program_iff, enc.admits_iff size]
  exact and_congr_right fun assignment => enc.isSatisfied_iff hn cut small assignment.isFinite 0

/-- What fits the variables and the constraints is linked, with or without a cut. -/
theorem Encoding.linked_of_fits {d : Diagram Exact} {o : PathVariableOptions Exact} {isLazy : Bool}
    {z : DecisionVariables} {x : PathVariables Exact} {m : Program Exact}
    (enc : Encoding d o isLazy z x m) (arranged : d.Arranged)
    (small : z.vars.length < Word.count64) {values : Array Exact}
    (size : z.vars.length + x.vars.length ≤ values.size)
    (fits : Fits values 0 m.vars.toList m.constraints.toList) :
    IsAssignment z x values ∧ IsLinked d o z x 0 (reading values) := by
  rw [fits_program_iff, enc.admits_iff size] at fits
  rcases fits with ⟨assignment, satisfied⟩
  exact ⟨assignment, enc.isLinked_of_isSatisfied arranged small assignment.isFinite satisfied⟩

namespace TailUtility

section Building

variable {α : Type} [Scalar α]

/-- The variables that the `k`-th outcome needs. -/
def variablesOf (k : ℕ) : List (Variable α) :=
  [⟨.binary, 0, 1, some ("lambda_" ++ k.repr)⟩, ⟨.binary, 0, 1, some ("lambda_bar_" ++ k.repr)⟩,
    ⟨.continuous, 0, Scalar.infinity, some ("rho_" ++ k.repr)⟩,
    ⟨.continuous, 0, Scalar.infinity, some ("rho_bar_" ++ k.repr)⟩]

/-- The constraints of an outcome whose variables are numbered from `first` on. -/
def constraintsOf (x : PathVariables α) (bigM epsilon : α) (eta first : ℕ) (o : Outcome α) :
    List (Constraint α) :=
  let mass := LinearExpr.term o.var (o.probability * x.scale)
  let below (v : ℕ) (c : α) : LinearExpr α := LinearExpr.var eta - LinearExpr.term v c
  let rho := LinearExpr.var (first + 2)
  let rhoBar := LinearExpr.var (first + 3)
  [normalized (below first bigM) .le o.utility false,
    normalized (below first (bigM + epsilon)) .ge (o.utility - bigM) false,
    normalized (below (first + 1) (bigM + epsilon)) .le (o.utility - epsilon) false,
    normalized (below (first + 1) bigM) .ge (o.utility - bigM) false,
    normalized (rho - rhoBar) .le 0 false,
    normalized (rhoBar - mass) .le 0 false,
    normalized (mass + LinearExpr.term first x.scale - rho) .le x.scale false,
    normalized (rho - LinearExpr.term first x.scale) .le 0 false,
    normalized (rhoBar - LinearExpr.term (first + 1) x.scale) .le 0 false]

private theorem succeeds_add {expr : LinearExpr α} {sense : Sense} {rhs : α} {m m' : Program α}
    {u : Unit} (h : Succeeds (do let _ ← Program.constrain expr sense rhs false : ProgramM α Unit) m u m') :
    Grows m m' [] [normalized expr sense rhs false] := by
  obtain ⟨k, t, constrained, h⟩ := succeeds_bind.mp h
  obtain ⟨-, rfl⟩ := succeeds_pure.mp h
  exact (succeeds_constrain constrained).2

theorem succeeds_addOutcome {x : PathVariables α} {bigM epsilon : α} {eta k r : ℕ} {o : Outcome α}
    {m m' : Program α} (h : Succeeds (addOutcome x bigM epsilon eta k o) m r m') :
    r = m.vars.size + 3 ∧
      Grows m m' (variablesOf k) (constraintsOf x bigM epsilon eta m.vars.size o) := by
  unfold addOutcome at h
  obtain ⟨lambda, m₁, h₁, h⟩ := succeeds_bind.mp h
  obtain ⟨lambdaBar, m₂, h₂, h⟩ := succeeds_bind.mp h
  obtain ⟨rho, m₃, h₃, h⟩ := succeeds_bind.mp h
  obtain ⟨rhoBar, m₄, h₄, h⟩ := succeeds_bind.mp h
  obtain ⟨rfl, g₁⟩ := succeeds_addVariable h₁
  obtain ⟨rfl, g₂⟩ := succeeds_addVariable h₂
  obtain ⟨rfl, g₃⟩ := succeeds_addVariable h₃
  obtain ⟨rfl, g₄⟩ := succeeds_addVariable h₄
  dsimp only at h
  obtain ⟨_, m₅, h₅, h⟩ := succeeds_bind.mp h
  obtain ⟨_, m₆, h₆, h⟩ := succeeds_bind.mp h
  obtain ⟨_, m₇, h₇, h⟩ := succeeds_bind.mp h
  obtain ⟨_, m₈, h₈, h⟩ := succeeds_bind.mp h
  obtain ⟨_, m₉, h₉, h⟩ := succeeds_bind.mp h
  obtain ⟨_, m₁₀, h₁₀, h⟩ := succeeds_bind.mp h
  obtain ⟨_, m₁₁, h₁₁, h⟩ := succeeds_bind.mp h
  obtain ⟨_, m₁₂, h₁₂, h⟩ := succeeds_bind.mp h
  obtain ⟨_, m₁₃, h₁₃, h⟩ := succeeds_bind.mp h
  obtain ⟨rfl, rfl⟩ := succeeds_pure.mp h
  have s₁ : m₁.vars.size = m.vars.size + 1 := g₁.size
  have s₂ : m₂.vars.size = m.vars.size + 2 := by rw [g₂.size, s₁]; rfl
  have s₃ : m₃.vars.size = m.vars.size + 3 := by rw [g₃.size, s₂]; rfl
  have grows := (((g₁.trans g₂).trans g₃).trans g₄).trans <| (succeeds_add h₅).trans <|
    (succeeds_add h₆).trans <| (succeeds_add h₇).trans <| (succeeds_add h₈).trans <|
    (succeeds_add h₉).trans <| (succeeds_add h₁₀).trans <| (succeeds_add h₁₁).trans <|
    (succeeds_add h₁₂).trans (succeeds_add h₁₃)
  rw [s₁, s₂, s₃] at grows
  exact ⟨s₃, grows⟩

/-- The constraints of outcomes whose variables are numbered one behind the other. -/
def constraintsFrom (x : PathVariables α) (bigM epsilon : α) (eta : ℕ) :
    ℕ → List (Outcome α) → List (Constraint α)
  | _, [] => []
  | first, o :: os =>
    constraintsOf x bigM epsilon eta first o ++ constraintsFrom x bigM epsilon eta (first + 4) os

/-- The variables of the masses that count, of outcomes numbered one behind the other. -/
def tailVars (first n : ℕ) : List ℕ := List.range' (first + 3) n 4

theorem succeeds_mapM_addOutcome {x : PathVariables α} {bigM epsilon : α} {eta k : ℕ}
    {os : List (Outcome α)} {m m' : Program α} {tail : List ℕ}
    (h : Succeeds ((os.zipIdx k).mapM fun (o, j) => addOutcome x bigM epsilon eta j o) m tail m') :
    tail = tailVars m.vars.size os.length ∧
      Grows m m' ((List.range' k os.length).flatMap variablesOf)
        (constraintsFrom x bigM epsilon eta m.vars.size os) := by
  induction os generalizing m k tail with
  | nil =>
    obtain ⟨rfl, rfl⟩ := succeeds_mapM_nil.mp h
    exact ⟨rfl, .refl _⟩
  | cons o os ih =>
    rw [List.zipIdx_cons] at h
    obtain ⟨r, rest, t, first, later, rfl⟩ := succeeds_mapM_cons.mp h
    obtain ⟨rfl, grows⟩ := succeeds_addOutcome first
    obtain ⟨rfl, grows'⟩ := ih later
    have size : t.vars.size = m.vars.size + 4 := grows.size
    refine ⟨?_, ?_⟩
    · rw [tailVars, tailVars, size, List.length_cons, List.range'_succ]
    · have both := grows.trans grows'
      rwa [size] at both

/-- The variables of the quantile and of a number of outcomes. -/
def tailVariables (n : ℕ) : List (Variable α) :=
  ⟨.continuous, -Scalar.infinity, Scalar.infinity, some "eta"⟩ ::
    (List.range' 0 n).flatMap variablesOf

/-- The mass that counts is that of the level. -/
def tailMass (x : PathVariables α) (alpha : α) (first n : ℕ) : Constraint α :=
  normalized (LinearExpr.sum ((tailVars first n).map LinearExpr.var)) .eq (alpha * x.scale) false

/-- The constraints of a tail objective whose variables are numbered from the quantile on. -/
def tailConstraints (x : PathVariables α) (bigM epsilon alpha : α) (eta : ℕ) (os : List (Outcome α)) :
    List (Constraint α) :=
  constraintsFrom x bigM epsilon eta (eta + 1) os ++ [tailMass x alpha (eta + 1) os.length]

/-- What a tail objective over outcomes is made of: a constant where all utilities are the same,
and else the quantile, the variables and constraints of the outcomes, and the mass that counts. -/
theorem succeeds_buildOver {d : Diagram α} {x : PathVariables α} {alpha : α}
    {os : List (Outcome α)} {s : Spread α} {t : TailUtility α} {m m' : Program α}
    (h : Succeeds (buildOver d x alpha os s) m t m') :
    (Scalar.isFinite s.gap = false ∧ m' = m ∧
        t = ⟨LinearExpr.const (s.low * alpha * x.scale), alpha, d.shift, x.scale, none⟩) ∨
      (Scalar.isFinite s.gap = true ∧
        t = ⟨LinearExpr.ofTerms (((tailVars (m.vars.size + 1) os.length).zip os).map
          fun (v, o) => (v, o.utility)), alpha, d.shift, x.scale, some m.vars.size⟩ ∧
        Grows m m' (tailVariables os.length)
          (tailConstraints x (s.high - s.low) (s.gap / 2.0) alpha m.vars.size os)) := by
  unfold buildOver at h
  cases wide : Scalar.isFinite s.gap with
  | false =>
    rw [wide] at h
    obtain ⟨rfl, rfl⟩ := succeeds_pure.mp h
    exact .inl ⟨rfl, rfl, rfl⟩
  | true =>
    rw [wide] at h
    obtain ⟨eta, m₁, added, h⟩ := succeeds_bind.mp h
    obtain ⟨tail, m₂, group, h⟩ := succeeds_bind.mp h
    obtain ⟨_, m₃, constrained, h⟩ := succeeds_bind.mp h
    obtain ⟨rfl, rfl⟩ := succeeds_pure.mp h
    obtain ⟨rfl, grows⟩ := succeeds_addVariable added
    obtain ⟨rfl, grows'⟩ := succeeds_mapM_addOutcome group
    have size : m₁.vars.size = m.vars.size + 1 := grows.size
    have all := grows.trans (grows'.trans (succeeds_constrain constrained).2)
    rw [size, List.append_nil] at all
    rw [size]
    exact .inr ⟨rfl, rfl, all⟩

/-- A tail objective is built over the outcomes of the path variables, at a level that counts. -/
theorem succeeds_build_iff {d : Diagram α} {x : PathVariables α} {alpha : α} {t : TailUtility α}
    {m m' : Program α} : Succeeds (build d x alpha) m t m' ↔ (0 < alpha ∧ alpha ≤ 1) ∧
      ∃ os s, outcomes d x = .ok os ∧ spread? (os.map (·.utility)) = some s ∧
        Succeeds (buildOver d x alpha os s) m t m' := by
  unfold build
  by_cases level : (decide (0 < alpha) && decide (alpha ≤ 1)) = true
  swap
  · have outside : ¬ (0 < alpha ∧ alpha ≤ 1) := by
      rwa [Bool.and_eq_true, decide_eq_true_eq, decide_eq_true_eq] at level
    rw [Bool.not_eq_true] at level
    rw [level]
    exact iff_of_false (fun h => absurd h not_succeeds_throw) fun h => outside h.1
  rw [level]
  rw [Bool.and_eq_true, decide_eq_true_eq, decide_eq_true_eq] at level
  rw [and_iff_right level]
  refine succeeds_lift_bind.trans (exists_congr fun os => ?_)
  cases hs : spread? (os.map (·.utility)) with
  | none => exact iff_of_false (fun h => absurd h.2 not_succeeds_throw) (by rintro ⟨s, -, h, -⟩; cases h)
  | some s =>
    constructor
    · rintro ⟨listed, h⟩
      exact ⟨s, listed, rfl, h⟩
    · rintro ⟨s', listed, same, h⟩
      obtain rfl := Option.some.inj same
      exact ⟨listed, h⟩

end Building

/-! ## Infinite values -/

/-- A comparison of a variable with a multiple of another one. -/
def pair (v w : ℕ) (k r : ℚ) (s : Sense) : Constraint Exact :=
  normalized (LinearExpr.var v - LinearExpr.term w (finite k)) s (finite r) false

/-- An infinite value of its first variable decides the slack of a pair. -/
private theorem slack_infinite {values : Array Exact} {limit : Exact}
    (h : limit = top ∨ limit = bottom) {v w : ℕ} (differ : v ≠ w) {k r b : ℚ} (nonzero : k ≠ 0)
    {s : Sense} (hv : values.getD v 0 = limit) (hw : values.getD w 0 = finite b) :
    (pair v w k r s).slack values = limit := by
  have names : ((LinearExpr.var v - LinearExpr.term w (finite k) :
      LinearExpr Exact).terms.map (·.1)).Nodup := by
    change [v, w].Nodup
    simp [differ]
  have compact : (LinearExpr.var v - LinearExpr.term w (finite k) : LinearExpr Exact).compact =
      LinearExpr.var v - LinearExpr.term w (finite k) := by
    refine LinearExpr.compact_of_nodup names fun t ht => ?_
    change t ∈ [(v, finite 1), (w, finite (k * -1))] at ht
    rcases List.mem_pair.mp ht with rfl | rfl
    · rfl
    · rw [zero_eq_finite, finite_beq, decide_eq_false_iff_not, mul_neg_one, neg_eq_zero]
      exact nonzero
  unfold pair normalized Constraint.slack LinearExpr.evaluate
  rw [compact]
  change _ + ((-0 + 1 * values.getD v 0) + finite k * -1 * values.getD w 0) - _ = limit
  rw [hv, hw]
  rcases h with rfl | rfl
  · rfl
  · rfl

theorem ne_top_of_le {values : Array Exact} {v w : ℕ} (differ : v ≠ w) {k r b : ℚ}
    (nonzero : k ≠ 0) (hw : values.getD w 0 = finite b)
    (h : (pair v w k r .le).isSatisfied values 0 = true) : values.getD v 0 ≠ top := by
  intro infinite
  have slack := slack_infinite (s := .le) (r := r) (.inl rfl) differ nonzero infinite hw
  change decide ((pair v w k r .le).slack values ≤ 0) = true at h
  rw [slack] at h
  exact of_decide_eq_true h

theorem ne_bottom_of_ge {values : Array Exact} {v w : ℕ} (differ : v ≠ w) {k r b : ℚ}
    (nonzero : k ≠ 0) (hw : values.getD w 0 = finite b)
    (h : (pair v w k r .ge).isSatisfied values 0 = true) : values.getD v 0 ≠ bottom := by
  intro infinite
  have slack := slack_infinite (s := .ge) (r := r) (.inr rfl) differ nonzero infinite hw
  change decide (-0 ≤ (pair v w k r .ge).slack values) = true at h
  rw [slack] at h
  exact of_decide_eq_true h

/-! ## The constraints in rationals -/

private theorem pair_iff {values : Array Exact} {a : ℕ → ℚ} {v w : ℕ} {k r : ℚ} {s : Sense}
    (hv : values.getD v 0 = finite (a v)) (hw : values.getD w 0 = finite (a w)) :
    (pair v w k r s).isSatisfied values 0 = true ↔ s.Passes 0 (a v - k * a w - r) := by
  have isFinite := (LinearExpr.isFinite_var v).sub (LinearExpr.isFinite_term w k)
  rw [pair, zero_eq_finite, isSatisfied_normalized_iff isFinite (a := a) fun t ht => ?_,
    LinearExpr.valueAt_sub (LinearExpr.isFinite_var v) (LinearExpr.isFinite_term w k),
    LinearExpr.valueAt_var, LinearExpr.valueAt_term]
  change t ∈ [(v, finite 1), (w, finite k * -1)] at ht
  rcases List.mem_pair.mp ht with rfl | rfl
  · exact hv
  · exact hw

/-- What the constraints of an outcome say of the quantile, the outcome's scaled mass, and the
values of its variables. -/
structure Placed (bigM epsilon scale utility eta mass lambda lambdaBar rho rhoBar : ℚ) : Prop where
  below_le : eta - bigM * lambda ≤ utility
  below_ge : utility - bigM ≤ eta - (bigM + epsilon) * lambda
  upTo_le : eta - (bigM + epsilon) * lambdaBar ≤ utility - epsilon
  upTo_ge : utility - bigM ≤ eta - bigM * lambdaBar
  rho_le : rho ≤ rhoBar
  rhoBar_le : rhoBar ≤ mass
  full : mass + scale * lambda - rho ≤ scale
  rho_off : rho ≤ scale * lambda
  rhoBar_off : rhoBar ≤ scale * lambdaBar

/-- The constraints of an outcome, all but one of them pairs. -/
theorem constraintsOf_eq {x : PathVariables Exact} {f : ℚ} (scale : x.scale = finite f)
    (bigM epsilon w u : ℚ) (eta first v : ℕ) :
    constraintsOf x (finite bigM) (finite epsilon) eta first ⟨v, finite w, finite u⟩ =
      [pair eta first bigM u .le, pair eta first (bigM + epsilon) (u - bigM) .ge,
        pair eta (first + 1) (bigM + epsilon) (u - epsilon) .le,
        pair eta (first + 1) bigM (u - bigM) .ge, pair (first + 2) (first + 3) 1 0 .le,
        pair (first + 3) v (w * f) 0 .le,
        normalized (LinearExpr.term v (finite (w * f)) + LinearExpr.term first (finite f) -
          LinearExpr.var (first + 2)) .le (finite f) false,
        pair (first + 2) first f 0 .le, pair (first + 3) (first + 1) f 0 .le] := by
  unfold constraintsOf pair
  rw [scale]
  dsimp only
  rw [finite_mul, finite_add, finite_sub, finite_sub]
  rfl

/-- The constraints of an outcome hold of finite values where these are placed. -/
theorem isSatisfied_constraintsOf_iff {x : PathVariables Exact} {values : Array Exact} {a : ℕ → ℚ}
    {bigM epsilon f w u : ℚ} {eta first v : ℕ} (scale : x.scale = finite f)
    (hv : ∀ j ∈ [v, eta, first, first + 1, first + 2, first + 3],
      values.getD j 0 = finite (a j)) :
    (∀ c ∈ constraintsOf x (finite bigM) (finite epsilon) eta first ⟨v, finite w, finite u⟩,
        c.isSatisfied values 0 = true) ↔
      Placed bigM epsilon f u (a eta) (w * f * a v) (a first) (a (first + 1)) (a (first + 2))
        (a (first + 3)) := by
  simp only [List.forall_mem_cons, List.not_mem_nil, false_imp_iff, implies_true, and_true] at hv
  obtain ⟨h, h_eta, h₀, h₁, h₂, h₃⟩ := hv
  have full : (normalized (LinearExpr.term v (finite (w * f)) + LinearExpr.term first (finite f) -
      LinearExpr.var (first + 2)) .le (finite f) false).isSatisfied values 0 = true ↔
      w * f * a v + f * a first - a (first + 2) - f ≤ 0 := by
    have left := (LinearExpr.isFinite_term v (w * f)).add (LinearExpr.isFinite_term first f)
    have isFinite := left.sub (LinearExpr.isFinite_var (first + 2))
    rw [zero_eq_finite, isSatisfied_normalized_iff isFinite (a := a) fun t ht => ?_,
      LinearExpr.valueAt_sub left (LinearExpr.isFinite_var _),
      LinearExpr.valueAt_add (LinearExpr.isFinite_term _ _) (LinearExpr.isFinite_term _ _),
      LinearExpr.valueAt_var, LinearExpr.valueAt_term, LinearExpr.valueAt_term]
    · rfl
    · change t ∈ [(v, finite (w * f)), (first, finite f), (first + 2, finite 1 * -1)] at ht
      simp only [List.mem_cons, List.not_mem_nil, or_false] at ht
      rcases ht with rfl | rfl | rfl
      · exact h
      · exact h₀
      · exact h₂
  rw [constraintsOf_eq scale]
  simp only [List.forall_mem_cons, List.not_mem_nil, false_imp_iff, implies_true, and_true]
  rw [pair_iff h_eta h₀, pair_iff h_eta h₀, pair_iff h_eta h₁, pair_iff h_eta h₁, pair_iff h₂ h₃,
    pair_iff h₃ h, full, pair_iff h₂ h₀, pair_iff h₃ h₁]
  simp only [Sense.Passes, neg_zero, one_mul]
  constructor
  · rintro ⟨h₁, h₂, h₃, h₄, h₅, h₆, h₇, h₈, h₉⟩
    constructor <;> linarith
  · rintro ⟨h₁, h₂, h₃, h₄, h₅, h₆, h₇, h₈, h₉⟩
    exact ⟨by linarith, by linarith, by linarith, by linarith, by linarith, by linarith,
      by linarith, by linarith, by linarith⟩

namespace Placed

variable {bigM epsilon scale utility eta mass lambda lambdaBar rho rhoBar : ℚ}

/-- What is worse than the quantile counts in full. -/
theorem rhoBar_of_below
    (h : Placed bigM epsilon scale utility eta mass lambda lambdaBar rho rhoBar)
    (bit : lambda = 0 ∨ lambda = 1) (low : utility < eta) : rhoBar = mass := by
  have on : lambda = 1 := by
    rcases bit with rfl | on
    · have := h.below_le
      linarith
    · exact on
  have full := h.full
  rw [on, mul_one] at full
  exact le_antisymm h.rhoBar_le (by linarith [h.rho_le])

/-- What is better than the quantile does not count. -/
theorem rhoBar_of_above
    (h : Placed bigM epsilon scale utility eta mass lambda lambdaBar rho rhoBar)
    (bit : lambdaBar = 0 ∨ lambdaBar = 1) (nonneg : 0 ≤ rhoBar) (high : eta < utility) :
    rhoBar = 0 := by
  have off : lambdaBar = 0 := by
    rcases bit with off | rfl
    · exact off
    · have := h.upTo_ge
      linarith
  have bound := h.rhoBar_off
  rw [off, mul_zero] at bound
  exact le_antisymm bound nonneg

end Placed

/-- An outcome that counts as in a tail is placed, if different utilities are far enough apart. -/
theorem placed_of_tail {low high epsilon scale utility eta mass amount : ℚ}
    (utility_mem : low ≤ utility ∧ utility ≤ high) (eta_mem : low ≤ eta ∧ eta ≤ high)
    (apart : utility < eta → epsilon ≤ eta - utility)
    (apart' : eta < utility → epsilon ≤ utility - eta) (mass_le : mass ≤ scale)
    (amount_nonneg : 0 ≤ amount) (amount_le : amount ≤ mass)
    (below : utility < eta → amount = mass) (above : eta < utility → amount = 0) :
    Placed (high - low) epsilon scale utility eta mass (if utility < eta then 1 else 0)
      (if utility ≤ eta then 1 else 0) (if utility < eta then mass else 0) amount := by
  rcases lt_trichotomy utility eta with lower | level | upper
  · have far := apart lower
    have full := below lower
    rw [if_pos lower, if_pos lower, if_pos lower.le]
    constructor <;> linarith
  · rw [if_neg level.not_lt, if_neg level.not_lt, if_pos level.le]
    constructor <;> linarith
  · have far := apart' upper
    have none := above upper
    rw [if_neg (not_lt.mpr upper.le), if_neg (not_lt.mpr upper.le), if_neg (not_le.mpr upper)]
    constructor <;> linarith

end TailUtility

end Influence
