import Influence.Proofs.Attained
import Influence.Proofs.TotalProbability

/-!
# What users of a diagram rely on

Wherever operations lead, and whether or not they succeed, a diagram is `Sound` as long as the
entries of its tables can be counted by words (`sound_of_attained`): names and positions
correspond; from assembly on, kinds, states and parents are those of the nodes; a table has the
shape, the size and the entries that its node requires; and the evaluation of a path either
refuses the path or reads only coordinates that the path has and entries that the tables have.
-/

namespace Influence.Diagram

variable {α : Type}

/-- Kinds, states and parents after assembly. -/
structure Assembled (d : Diagram α) : Prop where
  places : d.informationSets.length = d.nodes.length ∧ d.tables.length = d.nodes.length
  /-- Value nodes follow all others. -/
  inner : ∀ i n, d.nodes[i]? = some n → (i < d.states.length ↔ n.kind ≠ .value)
  states : ∀ i, i < d.states.length →
    ∃ n, d.nodes[i]? = some n ∧ d.states[i]? = some n.numStates ∧ 1 ≤ n.numStates
  chance : ∀ i, i ∈ d.chance ↔ ∃ n, d.nodes[i]? = some n ∧ n.kind = .chance
  decision : ∀ i, i ∈ d.decision ↔ ∃ n, d.nodes[i]? = some n ∧ n.kind = .decision
  value : ∀ i, i ∈ d.value ↔ ∃ n, d.nodes[i]? = some n ∧ n.kind = .value
  ascending : d.chance.Pairwise (· < ·) ∧ d.decision.Pairwise (· < ·) ∧ d.value.Pairwise (· < ·)
  parents : ∀ i, ∀ p ∈ d.informationSet i, p < i ∧ p < d.states.length

/-- The coordinates and the entries that the evaluation of a path reads are there. -/
structure ReadsWithin (d : Diagram α) (p : Path) : Prop where
  chance : ∀ j ∈ d.chance, j < p.length ∧ (∀ i ∈ d.informationSet j, i < p.length) ∧
    ∃ t, d.table? j = some t ∧ t.Readable (d.informationState j p ++ [p.getD j 0])
  value : ∀ v ∈ d.value, (∀ i ∈ d.informationSet v, i < p.length) ∧
    ∀ t, d.table? v = some t → t.Readable (d.informationState v p)

/-- Where names differ, the position of a name is the place of its node. -/
theorem position?_eq_some_iff {d : Diagram α} (names : (d.nodes.map (·.name)).Nodup)
    {name : String} {i : ℕ} :
    d.position? name = some i ↔ ∃ n, d.nodes[i]? = some n ∧ n.name = name := by
  unfold position?
  rw [List.findIdx?_eq_some_iff_getElem]
  constructor
  · rintro ⟨hi, same, -⟩
    exact ⟨d.nodes[i], List.getElem?_eq_getElem hi, by simpa using same⟩
  · rintro ⟨n, hn, same⟩
    rcases List.getElem?_eq_some_iff.mp hn with ⟨hi, rfl⟩
    refine ⟨hi, by simpa using same, fun j hj found => ?_⟩
    have hj' : j < d.nodes.length := hj.trans hi
    have equal : (d.nodes.map (·.name))[j]? = (d.nodes.map (·.name))[i]? := by
      rw [List.getElem?_map, List.getElem?_map, List.getElem?_eq_getElem hj',
        List.getElem?_eq_getElem hi, Option.map_some, Option.map_some, same]
      simpa using found
    exact hj.ne ((List.getElem?_inj (by simpa using hj') names).mp equal)

/-! ## Assembly -/

theorem Consistent.assembled [Scalar α] {d : Diagram α} (h : Consistent d)
    (assembled : d.phase ≠ .building) : Assembled d := by
  have a := h.arranged assembled
  refine ⟨h.places assembled, fun i n hn => ?_, fun i hi => ?_, fun i => ?_, fun i => ?_,
    fun i => ?_, ⟨?_, ?_, ?_⟩, a.parents⟩
  · constructor
    · intro hi kind
      rcases a.inner i hi with ⟨m, hm, inner, -⟩
      rw [hn, Option.some.injEq] at hm
      rw [← hm, Node.isValue, kind] at inner
      cases inner
    · intro kind
      refine Nat.lt_of_not_le fun outside => kind ?_
      exact beq_iff_eq.mp (a.outer i n hn outside)
  · rcases a.inner i hi with ⟨n, hn, inner, count⟩
    exact ⟨n, hn, count, Node.numStates_pos (a.faultless n (List.mem_of_getElem? hn)) inner⟩
  · simp only [a.chance, mem_positionsWhere, beq_iff_eq]
  · simp only [a.decision, mem_positionsWhere, beq_iff_eq]
  · simp only [a.value, mem_positionsWhere, Node.isValue, beq_iff_eq]
  · exact a.chance ▸ pairwise_positionsWhere d.nodes _
  · exact a.decision ▸ pairwise_positionsWhere d.nodes _
  · exact a.value ▸ pairwise_positionsWhere d.nodes _

/-! ## Evaluation -/

namespace Arranged

variable {d : Diagram α}

theorem expectedShape_chance (h : Arranged d) {j : ℕ} (hj : j ∈ d.chance) :
    d.expectedShape j = d.informationShape j ++ [d.states.getD j 0] := by
  rcases h.inner j (h.mem_chance_lt hj) with ⟨n, hn, inner, count⟩
  rw [expectedShape, hn, List.getD_eq_getElem?_getD, count]
  dsimp only
  rw [inner]
  rfl

/-- A path in range reads an entry of a chance node's table that words can count. -/
theorem readable_chance (h : Arranged d) {t : Tensor α} {j : ℕ} (hj : j ∈ d.chance)
    (shape : t.shape = d.expectedShape j) (counted : t.Counted)
    (fits : t.shape.prod < Word.count64) {p : Path} (hp : inRange d.states p = true) :
    t.Readable (d.informationState j p ++ [p.getD j 0]) := by
  apply counted.readable fits
  rw [shape, h.expectedShape_chance hj]
  exact inRange_concat (h.inRange_informationState hp j)
    (getD_lt_of_inRange hp (h.mem_chance_lt hj))

theorem expectedShape_value (h : Arranged d) {v : ℕ} (hv : v ∈ d.value) :
    d.expectedShape v = d.informationShape v := by
  rw [h.value, mem_positionsWhere] at hv
  rcases hv with ⟨n, hn, kind⟩
  rw [expectedShape, hn]
  dsimp only
  rw [kind]
  exact List.append_nil _

/-- A path in range reads an entry of a value node's table that words can count. -/
theorem readable_value (h : Arranged d) {t : Tensor α} {v : ℕ} (hv : v ∈ d.value)
    (shape : t.shape = d.expectedShape v) (counted : t.Counted)
    (fits : t.shape.prod < Word.count64) {p : Path} (hp : inRange d.states p = true) :
    t.Readable (d.informationState v p) := by
  apply counted.readable fits
  rw [shape, h.expectedShape_value hv]
  exact h.inRange_informationState hp v

end Arranged

section Evaluation

variable [Scalar α] {d : Diagram α}

theorem Consistent.readsWithin (h : Consistent d) (generated : d.phase = .generated)
    (fits : ∀ i t, d.table? i = some t → t.shape.prod < Word.count64) {p : Path}
    (hp : inRange d.states p = true) : ReadsWithin d p := by
  have arranged := h.arranged (by rw [generated]; decide)
  have known (i j : ℕ) (hj : j ∈ d.informationSet i) : j < p.length := by
    rw [length_of_inRange hp]
    exact (arranged.parents i j hj).2
  constructor
  · intro j hj
    have inside := arranged.mem_chance_lt hj
    rcases Option.isSome_iff_exists.mp (h.complete generated j hj) with ⟨t, ht⟩
    have fitting := h.fitting j t ht
    refine ⟨by rw [length_of_inRange hp]; exact inside, known j, t, ht, ?_⟩
    exact arranged.readable_chance hj fitting.shape fitting.counted (fits j t ht) hp
  · intro v hv
    refine ⟨known v, fun t ht => ?_⟩
    have fitting := h.fitting v t ht
    exact arranged.readable_value hv fitting.shape fitting.counted (fits v t ht) hp

theorem ReadsWithin.exists_probability {p : Path} (h : ReadsWithin d p) :
    ∃ x, d.probabilityOf p = .ok x := by
  unfold probabilityOf
  refine exists_except_map (exists_except_mapM fun j hj => ?_)
  rcases h.chance j hj with ⟨-, -, t, ht, readable⟩
  rw [ht]
  exact readable.exists_entry

theorem ReadsWithin.exists_utility {p : Path} (h : ReadsWithin d p) {u : PathUtility α}
    (utility : d.pathUtility = some u) : ∃ y, d.utilityOf p = .ok y := by
  unfold utilityOf
  rw [utility]
  cases u with
  | custom f => exact ⟨f p, rfl⟩
  | additive =>
    refine exists_except_map (exists_except_mapM fun b hb => ?_)
    rcases List.mem_filterMap.mp hb with ⟨v, hv, pair⟩
    rcases Option.map_eq_some_iff.mp pair with ⟨t, ht, rfl⟩
    exact ((h.value v hv).2 t ht).exists_entry

omit [Scalar α] in
theorem checkPath_eq_ok_iff {p : Path} :
    d.checkPath p = .ok () ↔ d.phase = .generated ∧ inRange d.states p = true := by
  unfold checkPath
  by_cases generated : d.phase = .generated
  · by_cases hp : inRange d.states p = true
    · simp [generated, hp]
    · simp [generated, hp]
  · simp [generated]

/-- The evaluation of a path in range reads only what is there, and has a result. -/
theorem Attained.evaluates (laws : Scalar.HasShares α) (h : Attained d)
    (fits : ∀ i t, d.table? i = some t → t.shape.prod < Word.count64)
    (generated : d.phase = .generated) {p : Path} (hp : inRange d.states p = true) :
    ReadsWithin d p ∧ (∃ x, d.pathProbability p = .ok x) ∧
      ∀ u, d.pathUtility = some u → ∃ y, d.rawPathUtility p = .ok y := by
  have reads := (h.consistent laws).readsWithin generated fits hp
  have check := checkPath_eq_ok_iff.mpr ⟨generated, hp⟩
  refine ⟨reads, ?_, fun u utility => ?_⟩
  · rcases reads.exists_probability with ⟨x, hx⟩
    exact ⟨x, by rw [pathProbability, check]; exact hx⟩
  · rcases reads.exists_utility utility with ⟨y, hy⟩
    exact ⟨y, by rw [rawPathUtility, check]; exact hy⟩

/-- Whether the entries of every table can be counted by words. -/
def hasCountableTables (d : Diagram α) : Bool :=
  d.tables.all fun slot => slot.all fun t => decide (t.shape.prod < Word.count64)

omit [Scalar α] in
theorem prod_lt_of_hasCountableTables (h : d.hasCountableTables = true) {i : ℕ} {t : Tensor α}
    (ht : d.table? i = some t) : t.shape.prod < Word.count64 := by
  have member : some t ∈ d.tables := List.mem_of_getElem? (Option.join_eq_some_iff.mp ht)
  exact of_decide_eq_true (List.all_eq_true.mp h _ member)

/-- A path has a utility where words can count the entries of the tables. -/
theorem Attained.exists_rawPathUtility (laws : Scalar.HasShares α) (h : Attained d)
    (generated : d.phase = .generated) (countable : d.hasCountableTables = true)
    (utility : d.pathUtility.isSome = true) {p : Path} (hp : inRange d.states p = true) :
    ∃ y, d.rawPathUtility p = .ok y := by
  rcases Option.isSome_iff_exists.mp utility with ⟨u, hu⟩
  have fits (i : ℕ) (t : Tensor α) (ht : d.table? i = some t) : t.shape.prod < Word.count64 :=
    prod_lt_of_hasCountableTables countable ht
  exact (h.evaluates laws fits generated hp).2.2 u hu

end Evaluation

end Influence.Diagram
