import Influence.Outcome.StateProbabilities
import Influence.Proofs.Distribution
import Influence.Proofs.Sound

/-!
# Total probability under a strategy

The paths that are compatible with a strategy carry the probability one, and what is reported
about the strategy splits this mass: by the state of a node in the state probabilities
(`rows_ofStrategy`), and by the utility in the distribution of utilities (`mem_points_iff`).
Either way every compatible path is counted once, so the parts sum to one again.
-/

namespace Influence

open Extended

variable {d : Diagram Exact} {σ : Strategy} {ps : List Path}

/-- The sum of the weights of the paths on which a node has a state. -/
def Diagram.stateMass (d : Diagram Exact) (ps : List Path) (node state : ℕ) : ℚ :=
  ((ps.filter fun p => p[node]? == some state).map d.weight).sum

/-- The masses of the states of every node. -/
def Diagram.stateMasses (d : Diagram Exact) (ps : List Path) : List (List Exact) :=
  d.states.zipIdx.map fun (count, node) =>
    (List.range count).map fun state => finite (d.stateMass ps node state)

namespace StateProbabilities

theorem massAt_eq (ps : List Path) (node state : ℕ) :
    massAt ((ps.filter fun p => decide (d.weight p ≠ 0)).map fun p => (p, finite (d.weight p)))
      node state = finite ((ps.filter fun p => p[node]? == some state).map d.weight).sum := by
  have light : ((ps.filter fun p => p[node]? == some state).map d.weight).sum =
      (((ps.filter fun p => decide (d.weight p ≠ 0)).filter
        fun p => p[node]? == some state).map d.weight).sum := by
    rw [List.filter_comm]
    refine (Distribution.sum_map_filter fun p _ weightless => ?_).symm
    simpa using weightless
  rw [massAt, List.filter_map, List.map_map, light, ← total_map_finite, List.map_map]
  rfl

/-- The masses of compatible paths whose probabilities are numbers. -/
theorem masses_eq_ok {fixed : FixedPath} (generated : d.phase = .generated)
    (run : σ.compatiblePaths d fixed = .ok ps)
    (readable : ∀ p ∈ ps, d.probabilityOf p = .ok (finite (d.weight p))) :
    masses d σ fixed = .ok (d.stateMasses ps) := by
  have weighted : (ps.filterMapM fun p => do
      let probability ← d.probabilityOf p
      pure (if probability == 0 then none else some (p, probability))) =
        (.ok ((ps.filter fun p => decide (d.weight p ≠ 0)).map
          fun p => (p, finite (d.weight p))) : Except (DiagramError Exact) _) := by
    rw [except_filterMapM_eq_ok (g := fun p => if d.weight p ≠ 0 then
      some (p, finite (d.weight p)) else none) fun p hp => ?_, Distribution.filterMap_ite]
    rw [readable p hp]
    change Except.ok (if (finite (d.weight p) : Exact) == finite 0 then none
      else some (p, finite (d.weight p))) = _
    rw [finite_beq]
    by_cases weight : d.weight p = 0 <;> simp [weight]
  have isGenerated : d.isGenerated = true := by
    rw [Diagram.isGenerated, generated]
    rfl
  unfold masses
  simp only [isGenerated, Bool.not_true, Bool.false_eq_true, if_false, Diagram.stateMasses,
    Diagram.stateMass, ← massAt_eq]
  rw [σ.collect_eq run, weighted]
  rfl

/-- The rows of the state probabilities split the mass of the compatible paths by the states of
the nodes. -/
theorem rows_ofStrategy (h : d.Weighed) (run : σ.compatiblePaths d .empty = .ok ps)
    (inside : ∀ p ∈ ps, inRange d.states p = true) :
    ofStrategy d σ = .ok ⟨stateNodes d, d.states.zipIdx.map fun (count, node) =>
      (List.range count).map fun state =>
        finite ((ps.filter fun p => p[node]? == some state).map d.weight).sum, none⟩ :=
  except_bind_eq_ok.mpr ⟨_, masses_eq_ok h.generated run fun p hp =>
    h.probabilityOf_eq (inside p hp), rfl⟩

end StateProbabilities

/-- The states of a coordinate split the sum over paths in range. -/
theorem sum_filter_states {f : Path → ℚ} (distinct : ps.Nodup)
    (inside : ∀ p ∈ ps, inRange d.states p = true) {node count : ℕ}
    (known : d.states[node]? = some count) :
    ((List.range count).map fun state =>
      ((ps.filter fun p => p[node]? == some state).map f).sum).sum = (ps.map f).sum := by
  have read {p : Path} (hp : p ∈ ps) (state : ℕ) :
      p[node]? = some state ↔ p.getD node 0 = state := by
    have long : node < p.length := by
      rw [length_of_inRange (inside p hp)]
      exact (List.getElem?_eq_some_iff.mp known).1
    rw [List.getD_eq_getElem?_getD, List.getElem?_eq_getElem long, Option.getD_some,
      Option.some.injEq]
  have below {p : Path} (hp : p ∈ ps.toFinset) : p.getD node 0 ∈ Finset.range count := by
    have lt := getD_lt_of_inRange (inside p (List.mem_toFinset.mp hp))
      (List.getElem?_eq_some_iff.mp known).1
    rw [List.getD_eq_getElem _ _ (List.getElem?_eq_some_iff.mp known).1,
      (List.getElem?_eq_some_iff.mp known).2] at lt
    exact Finset.mem_range.mpr lt
  have range : (List.range count).toFinset = Finset.range count := by
    ext state
    rw [List.mem_toFinset, List.mem_range, Finset.mem_range]
  rw [← List.sum_toFinset f distinct,
    ← Finset.sum_fiberwise_of_maps_to (fun p hp => below hp) f,
    ← List.sum_toFinset _ List.nodup_range, range]
  refine Finset.sum_congr rfl fun state _ => ?_
  rw [← List.sum_toFinset f (distinct.filter _), List.toFinset_filter]
  refine Finset.sum_congr (Finset.filter_congr fun p hp => ?_) fun _ _ => rfl
  rw [beq_iff_eq, read (List.mem_toFinset.mp hp)]

/-- The state probabilities under a strategy have a row for every node with states, and it is a
distribution of the states. -/
theorem StateProbabilities.exists_ofStrategy (covers : σ.Covers d) (h : d.Normalized) :
    ∃ x, ofStrategy d σ = .ok x ∧ x.names = stateNodes d ∧ x.rows.map List.length = d.states ∧
      ∀ row ∈ x.rows, (∀ q ∈ row, 0 ≤ q) ∧ Scalar.sum row = 1 := by
  rcases covers.compatiblePaths_eq_ok h.arranged h.assembled with ⟨ps, run, distinct, member⟩
  have inside : ∀ p ∈ ps, inRange d.states p = true := fun p hp => ((member p).mp hp).1
  have total : (ps.map d.weight).sum = 1 :=
    (covers.sum_compatiblePaths h run d.weight).trans (sum_weight_followers h covers)
  refine ⟨_, rows_ofStrategy h.weighed run inside, rfl, ?_, fun row hrow => ?_⟩
  · rw [List.map_map]
    refine Eq.trans (List.map_congr_left fun entry _ => ?_) (List.zipIdx_map_fst 0 d.states)
    rw [Function.comp_apply, List.length_map, List.length_range]
  · rcases List.mem_map.mp hrow with ⟨⟨count, node⟩, entry, rfl⟩
    have known := List.mem_zipIdx_iff_getElem?.mp entry
    constructor
    · intro q hq
      rcases List.mem_map.mp hq with ⟨state, -, rfl⟩
      refine (finite_le 0 _).mpr (List.sum_nonneg fun r hr => ?_)
      rcases List.mem_map.mp hr with ⟨p, hp, rfl⟩
      exact h.weighed.weight_nonneg (inside p (List.mem_of_mem_filter hp))
    · have sum := sum_filter_states (f := d.weight) distinct inside known
      rw [total] at sum
      rw [one_eq_finite, ← sum, ← sum_map_finite, List.map_map]
      rfl

/-! ## By the utility -/

end Influence
