import Influence.Proofs.Tail
import Influence.Proofs.TailEncoding

/-!
# Assignments of the tail objective
-/

namespace Influence

open Extended Program

namespace TailUtility

/-! ## One outcome -/

/-- The values of the variables of an outcome: a quantile, two bits, and two masses, which the
constraints place. -/
structure Grouped (values : Array Exact) (bigM epsilon scale weight utility : ℚ)
    (eta first v : ℕ) : Prop where
  quantile : values.getD eta 0 = finite (reading values eta)
  isFinite : ∀ i < 4, values.getD (first + i) 0 = finite (reading values (first + i))
  lambda : reading values first = 0 ∨ reading values first = 1
  lambdaBar : reading values (first + 1) = 0 ∨ reading values (first + 1) = 1
  rho : 0 ≤ reading values (first + 2)
  rhoBar : 0 ≤ reading values (first + 3)
  placed : Placed bigM epsilon scale utility (reading values eta)
    (weight * scale * reading values v) (reading values first) (reading values (first + 1))
    (reading values (first + 2)) (reading values (first + 3))

private theorem admits_mass_iff {name : Option String} {y : Exact} :
    Variable.admits ⟨.continuous, 0, Scalar.infinity, name⟩ y 0 = true ↔
      y = top ∨ ∃ r : ℚ, y = finite r ∧ 0 ≤ r := by
  have unfolded : Variable.admits ⟨.continuous, 0, Scalar.infinity, name⟩ y 0 = true ↔
      (finite 0 : Exact) ≤ y ∧ y ≤ top := by
    have low : (0 - 0 : Exact) = finite 0 := by rw [zero_eq_finite, finite_sub, sub_zero]
    simp only [Variable.admits, beq_self_eq_true, Bool.true_or, Bool.and_true, Bool.and_eq_true,
      decide_eq_true_eq, low]
    rfl
  rw [unfolded]
  cases y with
  | notANumber => exact iff_of_false (fun h => h.1) (by rintro (h | ⟨r, h, -⟩) <;> cases h)
  | bottom => exact iff_of_false (fun h => h.1) (by rintro (h | ⟨r, h, -⟩) <;> cases h)
  | finite r =>
    constructor
    · exact fun h => .inr ⟨r, rfl, h.1⟩
    · rintro (h | ⟨r', h, nonneg⟩)
      · cases h
      · rw [Extended.finite.inj h]
        exact ⟨nonneg, trivial⟩
  | top => exact iff_of_true ⟨trivial, trivial⟩ (.inl rfl)

private theorem admits_quantile_iff {name : Option String} {y : Exact} :
    Variable.admits ⟨.continuous, -Scalar.infinity, Scalar.infinity, name⟩ y 0 = true ↔
      y ≠ notANumber := by
  have unfolded :
      Variable.admits ⟨.continuous, -Scalar.infinity, Scalar.infinity, name⟩ y 0 = true ↔
        (bottom : Exact) ≤ y ∧ y ≤ top := by
    simp only [Variable.admits, beq_self_eq_true, Bool.true_or, Bool.and_true, Bool.and_eq_true,
      decide_eq_true_eq]
    rfl
  rw [unfolded]
  cases y with
  | notANumber => exact iff_of_false (fun h => h.1) fun h => h rfl
  | bottom => exact iff_of_true ⟨trivial, trivial⟩ fun h => by cases h
  | finite r => exact iff_of_true ⟨trivial, trivial⟩ fun h => by cases h
  | top => exact iff_of_true ⟨trivial, trivial⟩ fun h => by cases h

private theorem finite_of_bit {values : Array Exact} {v : ℕ}
    (h : values.getD v 0 = 0 ∨ values.getD v 0 = 1) :
    values.getD v 0 = finite (reading values v) ∧
      (reading values v = 0 ∨ reading values v = 1) := by
  unfold reading
  rcases h with h | h
  · rw [h]
    exact ⟨rfl, .inl rfl⟩
  · rw [h]
    exact ⟨rfl, .inr rfl⟩

private theorem finite_of_mass {values : Array Exact} {v : ℕ}
    (h : values.getD v 0 = top ∨ ∃ r : ℚ, values.getD v 0 = finite r ∧ 0 ≤ r)
    (bounded : values.getD v 0 ≠ top) :
    values.getD v 0 = finite (reading values v) ∧ 0 ≤ reading values v := by
  obtain ⟨r, hr, nonneg⟩ := h.resolve_left bounded
  rw [reading, hr]
  exact ⟨rfl, nonneg⟩

/-- What fits the variables and constraints of an outcome, where the quantile is a number or
infinite. -/
theorem fits_group_iff {x : PathVariables Exact} {values : Array Exact}
    {bigM epsilon f w u : ℚ} {eta first v k : ℕ} (scale : x.scale = finite f) (f_pos : 0 < f)
    (w_pos : 0 < w) (wide : bigM + epsilon ≠ 0) (before : v < eta) (after : eta < first)
    (size : first + 4 ≤ values.size) (share : values.getD v 0 = finite (reading values v))
    (known : values.getD eta 0 ≠ notANumber) :
    Fits values first (variablesOf k)
        (constraintsOf x (finite bigM) (finite epsilon) eta first ⟨v, finite w, finite u⟩) ↔
      Grouped values bigM epsilon f w u eta first v := by
  have default {i : ℕ} (hi : i < 4) :
      values.getD (first + i) Scalar.notANumber = values.getD (first + i) 0 := by
    have inside : first + i < values.size := by omega
    simp [Array.getD, inside]
  constructor
  · rintro ⟨admits, satisfied⟩
    have listed := satisfied
    rw [constraintsOf_eq scale] at listed
    simp only [List.forall_mem_cons] at listed
    obtain ⟨-, below_ge, upTo_le, -, -, rhoBar_le, -, rho_off, -, -⟩ := listed
    have bit {i : ℕ} (hi : i < 2) : values.getD (first + i) 0 = 0 ∨ values.getD (first + i) 0 = 1 := by
      rw [← default (by omega)]
      rcases (by omega : i = 0 ∨ i = 1) with rfl | rfl
      · exact admits_binary_iff.mp (admits 0 _ rfl)
      · exact admits_binary_iff.mp (admits 1 _ rfl)
    obtain ⟨h₀, lambda⟩ := finite_of_bit (bit (i := 0) (by omega))
    obtain ⟨h₁, lambdaBar⟩ := finite_of_bit (bit (i := 1) (by omega))
    have mass {i : ℕ} (low : 2 ≤ i) (hi : i < 4) : values.getD (first + i) 0 = top ∨
        ∃ r : ℚ, values.getD (first + i) 0 = finite r ∧ 0 ≤ r := by
      rw [← default hi]
      rcases (by omega : i = 2 ∨ i = 3) with rfl | rfl
      · exact admits_mass_iff.mp (admits 2 _ rfl)
      · exact admits_mass_iff.mp (admits 3 _ rfl)
    obtain ⟨h₂, rho⟩ := finite_of_mass (mass (i := 2) le_rfl (by omega))
      (ne_top_of_le (by omega) f_pos.ne' h₀ rho_off)
    obtain ⟨h₃, rhoBar⟩ := finite_of_mass (mass (i := 3) (by omega) (by omega))
      (ne_top_of_le (by omega) (mul_pos w_pos f_pos).ne' share rhoBar_le)
    have quantile : values.getD eta 0 = finite (reading values eta) := by
      have high := ne_top_of_le (by omega) wide h₁ upTo_le
      have low := ne_bottom_of_ge (by omega) wide h₀ below_ge
      rw [reading]
      cases hy : values.getD eta 0 with
      | notANumber => exact absurd hy known
      | bottom => exact absurd hy low
      | finite r => rfl
      | top => exact absurd hy high
    refine ⟨quantile, fun i hi => ?_, lambda, lambdaBar, rho, rhoBar, ?_⟩
    · rcases (by omega : i = 0 ∨ i = 1 ∨ i = 2 ∨ i = 3) with rfl | rfl | rfl | rfl
      · exact h₀
      · exact h₁
      · exact h₂
      · exact h₃
    · refine (isSatisfied_constraintsOf_iff (a := reading values) scale ?_).mp satisfied
      simp only [List.forall_mem_cons, List.not_mem_nil, false_imp_iff, implies_true, and_true]
      exact ⟨share, quantile, h₀, h₁, h₂, h₃⟩
  · intro h
    have h₀ := h.isFinite 0 (by omega)
    have h₁ := h.isFinite 1 (by omega)
    have h₂ := h.isFinite 2 (by omega)
    have h₃ := h.isFinite 3 (by omega)
    refine ⟨fun i v hi => ?_, (isSatisfied_constraintsOf_iff (a := reading values) scale ?_).mpr
      h.placed⟩
    · have inside : i < 4 := (List.getElem?_eq_some_iff.mp hi).1
      rw [default inside]
      rcases (by omega : i = 0 ∨ i = 1 ∨ i = 2 ∨ i = 3) with rfl | rfl | rfl | rfl
      · obtain rfl := Option.some.inj hi
        rw [h₀]
        exact admits_binary_iff.mpr (h.lambda.imp (congrArg finite) (congrArg finite))
      · obtain rfl := Option.some.inj hi
        rw [h₁]
        exact admits_binary_iff.mpr (h.lambdaBar.imp (congrArg finite) (congrArg finite))
      · obtain rfl := Option.some.inj hi
        rw [h₂]
        exact admits_mass_iff.mpr (.inr ⟨_, rfl, h.rho⟩)
      · obtain rfl := Option.some.inj hi
        rw [h₃]
        exact admits_mass_iff.mpr (.inr ⟨_, rfl, h.rhoBar⟩)
    · simp only [List.forall_mem_cons, List.not_mem_nil, false_imp_iff, implies_true, and_true]
      exact ⟨share, h.quantile, h₀, h₁, h₂, h₃⟩

/-! ## All outcomes -/

theorem fits_from_iff {x : PathVariables Exact} {values : Array Exact} {bigM epsilon : Exact}
    {eta first k : ℕ} {os : List (Outcome Exact)} :
    Fits values first ((List.range' k os.length).flatMap variablesOf)
        (constraintsFrom x bigM epsilon eta first os) ↔
      ∀ j o, os[j]? = some o → Fits values (first + 4 * j) (variablesOf (k + j))
        (constraintsOf x bigM epsilon eta (first + 4 * j) o) := by
  induction os generalizing first k with
  | nil => exact iff_of_true fits_nil fun j o h => by cases h
  | cons o os ih =>
    have unfolded : Fits values first ((List.range' k (o :: os).length).flatMap variablesOf)
          (constraintsFrom x bigM epsilon eta first (o :: os)) ↔
        Fits values first (variablesOf k) (constraintsOf x bigM epsilon eta first o) ∧
          Fits values (first + 4) ((List.range' (k + 1) os.length).flatMap variablesOf)
            (constraintsFrom x bigM epsilon eta (first + 4) os) := fits_append
    rw [unfolded, ih]
    constructor
    · rintro ⟨head, rest⟩ j o' hj
      cases j with
      | zero =>
        obtain rfl := Option.some.inj hj
        exact head
      | succ j =>
        have := rest j o' hj
        rwa [Nat.add_assoc, Nat.add_assoc, Nat.add_comm 1 j, Nat.add_comm 4 (4 * j)] at this
    · intro all
      refine ⟨all 0 o rfl, fun j o' hj => ?_⟩
      have := all (j + 1) o' hj
      rwa [Nat.mul_succ, Nat.add_comm (4 * j) 4, Nat.add_comm j 1, ← Nat.add_assoc,
        ← Nat.add_assoc] at this

section Program

variable {d : Diagram Exact} {o : PathVariableOptions Exact} {isLazy : Bool}
  {z : DecisionVariables} {x : PathVariables Exact} {m : Program Exact}

/-- The outcome of a path variable. -/
def outcomeOf (d : Diagram Exact) (t : Path × ℕ) : Outcome Exact :=
  ⟨t.2, finite (d.weight t.1), finite (d.utility t.1 + d.shift.rational)⟩

theorem outcomes_eq_ok {start : ℕ} (h : PathVariables.LaidOut d z o x start) (hn : d.Normalized)
    {os : List (Outcome Exact)} (run : outcomes d x = .ok os) : os = x.vars.map (outcomeOf d) := by
  have known (t : Path × ℕ) (ht : t ∈ x.vars) :
      d.shiftedPathUtility t.1 = .ok (finite (d.utility t.1 + d.shift.rational)) := by
    obtain ⟨_, -, step⟩ := except_eq_ok_of_mem_mapM run ht
    obtain ⟨_, -, step⟩ := except_bind_eq_ok.mp step
    obtain ⟨u, hu, -⟩ := except_bind_eq_ok.mp step
    obtain ⟨-, rfl⟩ := hn.shiftedPathUtility_eq_ok hu
    exact hu
  unfold outcomes at run
  rw [except_mapM_eq_ok_map (g := outcomeOf d) fun t ht => ?_] at run
  · exact (Except.ok.inj run).symm
  · dsimp only
    rw [hn.weighed.probabilityOf_eq (h.inRange ht), known t ht]
    rfl

/-- The first of the variables that the outcome of a path variable needs. -/
def groupOf (z : DecisionVariables) (x : PathVariables Exact) (v : ℕ) : ℕ :=
  z.vars.length + x.vars.length + 1 + 4 * (v - z.vars.length)

/-- What the variables of the tail objective have to be. -/
structure Tallied (d : Diagram Exact) (z : DecisionVariables) (x : PathVariables Exact)
    (bigM epsilon alpha : ℚ) (values : Array Exact) : Prop where
  groups : ∀ t ∈ x.vars, Grouped values bigM epsilon x.scale.rational (d.weight t.1)
    (d.utility t.1 + d.shift.rational) (z.vars.length + x.vars.length) (groupOf z x t.2) t.2
  mass : (x.vars.map fun t => reading values (groupOf z x t.2 + 3)).sum = alpha * x.scale.rational

theorem var_of_getElem? (enc : Encoding d o isLazy z x m) {j : ℕ} {t : Path × ℕ}
    (hj : x.vars[j]? = some t) : t.2 = z.vars.length + j := by
  have number : (x.vars.map (·.2))[j]? = some t.2 := by rw [List.getElem?_map, hj]; rfl
  rw [enc.paths.vars, List.getElem?_range' (List.getElem?_eq_some_iff.mp hj).1, one_mul] at number
  exact (Option.some.inj number).symm

theorem tailVars_eq (enc : Encoding d o isLazy z x m) :
    tailVars (z.vars.length + x.vars.length + 1) x.vars.length =
      x.vars.map fun t => groupOf z x t.2 + 3 := by
  refine List.ext_getElem? fun j => ?_
  by_cases inside : j < x.vars.length
  · have hj := List.getElem?_eq_getElem inside
    rw [tailVars, List.getElem?_range' inside, List.getElem?_map, hj, Option.map_some, groupOf,
      var_of_getElem? enc hj, Nat.add_sub_cancel_left]
    congr 1
    omega
  · have outside := Nat.le_of_not_lt inside
    rw [List.getElem?_eq_none (by simpa [tailVars] using outside),
      List.getElem?_eq_none (by simpa using outside)]

private theorem length_tailVariables (n : ℕ) :
    (tailVariables n : List (Variable Exact)).length = 1 + 4 * n := by
  have width : ((List.range' 0 n).map fun j => (variablesOf j : List (Variable Exact)).length) =
      List.replicate n 4 :=
    List.eq_replicate_iff.mpr ⟨by simp, fun k hk => by
      obtain ⟨j, -, rfl⟩ := List.mem_map.mp hk
      rfl⟩
  rw [tailVariables, List.length_cons, List.length_flatMap, width, List.sum_replicate_nat]
  omega

/-- What fits the variables and constraints of a tail objective. -/
private theorem fits_iff_groups {values : Array Exact} {bigM epsilon alpha : Exact} {eta : ℕ}
    {os : List (Outcome Exact)} :
    Fits values eta (tailVariables os.length) (tailConstraints x bigM epsilon alpha eta os) ↔
      values.getD eta Scalar.notANumber ≠ notANumber ∧
        (∀ j o, os[j]? = some o → Fits values (eta + 1 + 4 * j) (variablesOf j)
          (constraintsOf x bigM epsilon eta (eta + 1 + 4 * j) o)) ∧
        (tailMass x alpha (eta + 1) os.length).isSatisfied values 0 = true := by
  have quantile : Fits values eta
        [⟨.continuous, -Scalar.infinity, Scalar.infinity, some "eta"⟩] [] ↔
      values.getD eta Scalar.notANumber ≠ notANumber := by
    rw [← admits_quantile_iff]
    refine ⟨fun h => h.admits 0 _ rfl, fun h => ⟨fun i v hi => ?_, fun c hc => by cases hc⟩⟩
    cases i with
    | zero =>
      obtain rfl := Option.some.inj hi
      exact h
    | succ i => cases hi
  have sum (base : ℕ) : Fits values base [] [tailMass x alpha (eta + 1) os.length] ↔
      (tailMass x alpha (eta + 1) os.length).isSatisfied values 0 = true :=
    ⟨fun h => h.satisfied _ (List.mem_singleton_self _),
      fun h => ⟨fun i v hi => (by cases hi), fun c hc => List.mem_singleton.mp hc ▸ h⟩⟩
  have split : Fits values eta (tailVariables os.length) (tailConstraints x bigM epsilon alpha eta os) ↔
      Fits values eta ([⟨.continuous, -Scalar.infinity, Scalar.infinity, some "eta"⟩] ++
          ((List.range' 0 os.length).flatMap variablesOf ++ []))
        ([] ++ (constraintsFrom x bigM epsilon eta (eta + 1) os ++
          [tailMass x alpha (eta + 1) os.length])) := by
    rw [List.append_nil]
    rfl
  rw [split, fits_append, fits_append, quantile, sum, List.length_singleton, fits_from_iff]
  simp only [Nat.zero_add]

/-- What is feasible for a program with the variables and constraints of a tail objective. -/
theorem isFeasible_iff (enc : Encoding d o isLazy z x m) (hn : d.Normalized)
    (cut : o.probabilityCut = true ∨ isLazy = true) (small : z.vars.length < Word.count64)
    {m' : Program Exact} {bigM epsilon alpha : ℚ} (wide : bigM + epsilon ≠ 0)
    (nonempty : x.vars ≠ [])
    (grows : Grows m m' (tailVariables (x.vars.map (outcomeOf d)).length)
      (tailConstraints x (finite bigM) (finite epsilon) (finite alpha) m.vars.size
        (x.vars.map (outcomeOf d)))) {values : Array Exact} :
    m'.isFeasible values 0 = true ↔
      values.size = z.vars.length + x.vars.length + 1 + 4 * x.vars.length ∧
        IsAssignment z x values ∧ Satisfies d o z x 0 (reading values) ∧
          Tallied d z x bigM epsilon alpha values := by
  obtain ⟨scale, scale_pos⟩ := enc.paths.scale_eq
  rw [grows.isFeasible_iff, length_tailVariables, enc.size_eq, fits_iff_groups, List.length_map,
    ← Nat.add_assoc]
  refine and_congr_right fun size => ?_
  rw [enc.fits_iff hn cut small (by omega), and_assoc]
  refine and_congr_right fun assignment => and_congr_right fun _ => ?_
  have first {j : ℕ} {t : Path × ℕ} (hj : x.vars[j]? = some t) :
      z.vars.length + x.vars.length + 1 + 4 * j = groupOf z x t.2 := by
    rw [groupOf, var_of_getElem? enc hj, Nat.add_sub_cancel_left]
  -- A number or infinite: inside the values the default does not matter.
  have known : values.getD (z.vars.length + x.vars.length) Scalar.notANumber =
      values.getD (z.vars.length + x.vars.length) 0 := by
    have inside : z.vars.length + x.vars.length < values.size := by omega
    simp [Array.getD, inside]
  have group {j : ℕ} {t : Path × ℕ} (hj : x.vars[j]? = some t)
      (quantile : values.getD (z.vars.length + x.vars.length) 0 ≠ notANumber) :
      Fits values (z.vars.length + x.vars.length + 1 + 4 * j) (variablesOf j)
          (constraintsOf x (finite bigM) (finite epsilon) (z.vars.length + x.vars.length)
            (z.vars.length + x.vars.length + 1 + 4 * j) (outcomeOf d t)) ↔
        Grouped values bigM epsilon x.scale.rational (d.weight t.1)
          (d.utility t.1 + d.shift.rational) (z.vars.length + x.vars.length)
          (groupOf z x t.2) t.2 := by
    have ht := List.mem_of_getElem? hj
    obtain ⟨-, below⟩ := enc.paths.var_mem ht
    have inside := (List.getElem?_eq_some_iff.mp hj).1
    rw [← first hj, outcomeOf]
    exact fits_group_iff scale scale_pos (enc.paths.weight_pos hn ht) wide below (by omega)
      (by omega) (assignment.isFinite t.2 below) quantile
  have sum (counted : ∀ t ∈ x.vars, values.getD (groupOf z x t.2 + 3) 0 =
        finite (reading values (groupOf z x t.2 + 3))) :
      (tailMass x (finite alpha) (z.vars.length + x.vars.length + 1)
          x.vars.length).isSatisfied values 0 = true ↔
        (x.vars.map fun t => reading values (groupOf z x t.2 + 3)).sum =
          alpha * x.scale.rational := by
    have scaled : finite alpha * x.scale = finite (alpha * x.scale.rational) := by
      conv_lhs => rw [scale]
      exact finite_mul _ _
    rw [tailMass, tailVars_eq enc, scaled, zero_eq_finite,
      isSatisfied_sum_iff (a := reading values) fun v hv => ?_, List.map_map, abs_nonpos_iff,
      sub_eq_zero]
    · rfl
    · obtain ⟨t, ht, rfl⟩ := List.mem_map.mp hv
      exact counted t ht
  constructor
  · rintro ⟨quantile, all, mass⟩
    rw [known] at quantile
    have groups : ∀ t ∈ x.vars, Grouped values bigM epsilon x.scale.rational (d.weight t.1)
        (d.utility t.1 + d.shift.rational) (z.vars.length + x.vars.length)
        (groupOf z x t.2) t.2 := by
      intro t ht
      obtain ⟨j, hj⟩ := List.getElem?_of_mem ht
      exact (group hj quantile).mp (all j (outcomeOf d t) (by rw [List.getElem?_map, hj]; rfl))
    exact ⟨groups, (sum fun t ht => (groups t ht).isFinite 3 (by omega)).mp mass⟩
  · rintro ⟨groups, mass⟩
    have quantile : values.getD (z.vars.length + x.vars.length) 0 ≠ notANumber := by
      obtain ⟨t, ht⟩ := List.exists_mem_of_ne_nil _ nonempty
      rw [(groups t ht).quantile]
      exact nofun
    refine ⟨known ▸ quantile, fun j o' hj => ?_,
      (sum fun t ht => (groups t ht).isFinite 3 (by omega)).mpr mass⟩
    rw [List.getElem?_map] at hj
    obtain ⟨t, ht, rfl⟩ := Option.map_eq_some_iff.mp hj
    exact (group ht quantile).mpr (groups t (List.mem_of_getElem? ht))

end Program

end TailUtility

end Influence
