import Influence.Diagram.Generation
import Influence.Diagram.Tables
import Influence.Proofs.Assembly
import Influence.Proofs.Exact
import Influence.Proofs.Paths
import Influence.Study.Build

/-!
# Reachable diagrams

A diagram is reachable if operations lead to it from a diagram without nodes, some of which
may have failed half way.  `Valid` is what every reachable diagram satisfies
(`Reachable.valid`): its nodes are faultless and have different names, from assembly on it is
`Arranged`, its tables hold finite entries and probabilities that are not negative, and once
it is generated the sign that it claims for shifted utilities is the sign that they have.

The diagrams of definition files are reachable (`reachable_of_build`).
-/

namespace Influence.Diagram

open Extended

variable {α : Type}

/-! ## Operations -/

/-- What can be done to a diagram. -/
inductive Operation where
  | addNode (n : Node)
  | generateArcs
  | setProbabilities (name : String) (source : TableSource Exact)
  | setUtility (name : String) (source : TableSource Exact)
  | generate (o : GenerateOptions)
  | setPathUtility (u : PathUtility Exact)

/-- The action of an operation. -/
def Operation.action : Operation → DiagramM Exact Unit
  | addNode n => Diagram.addNode n
  | generateArcs => Diagram.generateArcs
  | setProbabilities name source => Diagram.setProbabilities name source
  | setUtility name source => Diagram.setUtility name source
  | generate o => Diagram.generate o
  | setPathUtility u => Diagram.setPathUtility u

/-- Operations, failed ones included, lead to the diagram. -/
inductive Reachable : Diagram Exact → Prop
  | empty (strict : Bool) : Reachable (.empty strict)
  | step {d : Diagram Exact} (h : Reachable d) (op : Operation) :
      Reachable (op.action.run.run d).2

theorem keeps_reachable (op : Operation) : Keeps Reachable op.action := fun _ h => h.step op

/-! ## The invariant -/

/-- The entries of the attached tables. -/
structure Stored (d : Diagram Exact) : Prop where
  probability : ∀ j ∈ d.chance, ∀ t, d.table? j = some t →
    ∀ x ∈ t.data, ∃ r : ℚ, x = finite r ∧ 0 ≤ r
  utility : ∀ v ∈ d.value, ∀ t, d.table? v = some t → ∀ x ∈ t.data, Scalar.isFinite x = true

/-- Shifted utilities have the sign that the diagram claims for them. -/
structure Signed (d : Diagram Exact) : Prop where
  shift : Scalar.isFinite d.shift = true
  positive : d.sign = .positive → ∀ p, inRange d.states p = true → ∀ u, d.utilityOf p = .ok u →
    ∃ r : ℚ, u + d.shift = finite r ∧ 1 ≤ r
  negative : d.sign = .negative → ∀ p, inRange d.states p = true → ∀ u, d.utilityOf p = .ok u →
    ∃ r : ℚ, u + d.shift = finite r ∧ r ≤ -1

/-- What every operation keeps. -/
structure Valid (d : Diagram Exact) : Prop where
  names : (d.nodes.map (·.name)).Nodup
  faultless : ∀ n ∈ d.nodes, n.fault? = none
  arranged : d.phase ≠ .building → Arranged d
  stored : Stored d
  signed : d.phase = .generated → Signed d

theorem valid_empty (strict : Bool) : Valid (.empty strict) where
  names := List.nodup_nil
  faultless n hn := by cases hn
  arranged h := absurd rfl h
  stored := ⟨fun _ hj => (List.not_mem_nil hj).elim, fun _ hv => (List.not_mem_nil hv).elim⟩
  signed h := by cases h

/-! ## Assembly -/

theorem keeps_valid_addNode (n : Node) : Keeps Valid (addNode n) := fun d h =>
  (ends_addNode n d).mono fun _ e he => by
    rcases he with rfl | ⟨building, faultless, fresh, rfl⟩
    · exact h
    · refine ⟨?_, ?_, fun hb => absurd building hb, ⟨h.stored.probability, h.stored.utility⟩,
        fun hg => ?_⟩
      · rw [List.map_append, List.nodup_append]
        refine ⟨h.names, List.nodup_singleton _, ?_⟩
        rintro a ha b hb rfl
        obtain rfl : a = n.name := by simpa using hb
        exact fresh ha
      · intro m hm
        rcases List.mem_append.mp hm with hm | hm
        · exact h.faultless m hm
        · rwa [List.mem_singleton.mp hm]
      · rw [show d.phase = .generated from hg] at building
        cases building

theorem keeps_valid_generateArcs : Keeps Valid generateArcs := fun d h =>
  (ends_generateArcs d).mono fun _ e he => by
    rcases he with rfl | ⟨_, parents, placed, -, placing, rfl⟩
    · exact h
    · have arranged := arranged_ordered h.names h.faultless placing
      have noTable (i : ℕ) : (d.ordered parents
          (placed ++ positionsWhere d.nodes Node.isValue)).table? i = none := by
        change ((List.replicate d.nodes.length none)[i]?).join = (none : Option (Tensor Exact))
        rw [List.getElem?_replicate]
        split <;> rfl
      refine ⟨arranged.names, arranged.faultless, fun _ => arranged, ⟨?_, ?_⟩, fun hg => by cases hg⟩
      · intro j _ t ht
        rw [noTable] at ht
        cases ht
      · intro v _ t ht
        rw [noTable] at ht
        cases ht

/-! ## Tables -/

theorem table?_set {d : Diagram α} {i j : ℕ} {t u : Tensor α}
    (h : ({ d with tables := d.tables.set i (some t) } : Diagram α).table? j = some u) :
    (j = i ∧ u = t) ∨ d.table? j = some u := by
  unfold table? at h ⊢
  rw [List.getElem?_set] at h
  split at h
  case isTrue hij =>
    split at h
    · exact .inl ⟨hij.symm, (Option.some.inj h).symm⟩
    · cases h
  case isFalse => exact .inr h

/-- Attaching a table with suitable entries. -/
theorem Stored.set {d : Diagram Exact} (h : Stored d) {i : ℕ} {t : Tensor Exact}
    (probability : i ∈ d.chance → ∀ x ∈ t.data, ∃ r : ℚ, x = finite r ∧ 0 ≤ r)
    (utility : i ∈ d.value → ∀ x ∈ t.data, Scalar.isFinite x = true) :
    Stored { d with tables := d.tables.set i (some t) } where
  probability j hj u hu := by
    rcases table?_set hu with ⟨rfl, rfl⟩ | hu
    · exact probability hj
    · exact h.probability j hj u hu
  utility v hv u hu := by
    rcases table?_set hu with ⟨rfl, rfl⟩ | hu
    · exact utility hv
    · exact h.utility v hv u hu

/-- Only an assembled diagram takes tables, and only for nodes of the right kind. -/
theorem attachable_eq_ok {d : Diagram α} {name : String} {kind : NodeKind} {i : ℕ}
    (h : d.attachable name kind = .ok i) :
    d.phase = .assembled ∧ ∃ n, d.nodes[i]? = some n ∧ n.kind = kind := by
  unfold attachable at h
  split at h
  case h_1 => cases h
  case h_2 => cases h
  case h_3 assembled =>
    refine ⟨assembled, ?_⟩
    obtain ⟨⟨j, n⟩, found, h⟩ := except_bind_eq_ok.mp h
    dsimp only at h
    split at h
    case isFalse => cases h
    case isTrue kind =>
      obtain rfl : j = i := except_pure_eq_ok.mp h
      unfold lookup at found
      obtain ⟨k, _, found⟩ := except_bind_eq_ok.mp found
      split at found
      case h_1 m hm =>
        obtain ⟨rfl, rfl⟩ : k = j ∧ m = n := by simpa using except_pure_eq_ok.mp found
        exact ⟨m, hm, kind⟩
      case h_2 => cases found

/-- Attaching a table to a valid diagram that is not generated yet. -/
theorem Valid.attach {d : Diagram Exact} (h : Valid d) (assembled : d.phase = .assembled)
    {i : ℕ} {t : Tensor Exact}
    (probability : i ∈ d.chance → ∀ x ∈ t.data, ∃ r : ℚ, x = finite r ∧ 0 ≤ r)
    (utility : i ∈ d.value → ∀ x ∈ t.data, Scalar.isFinite x = true) :
    Valid { d with tables := d.tables.set i (some t) } where
  names := h.names
  faultless := h.faultless
  arranged hb := let a := h.arranged hb
    ⟨a.names, a.faultless, a.inner, a.outer, a.chance, a.decision, a.value, a.parents⟩
  stored := h.stored.set probability utility
  signed hg := by
    rw [show d.phase = .generated from hg] at assembled
    cases assembled

theorem keeps_valid_setProbabilities (name : String) (source : TableSource Exact) :
    Keeps Valid (setProbabilities name source) := by
  intro d h
  unfold setProbabilities
  rw [ends_get_bind, ends_liftM_bind]
  refine ⟨fun i hi => ?_, fun _ _ => h⟩
  rw [ends_liftM_bind]
  refine ⟨fun t _ => ?_, fun _ _ => h⟩
  obtain ⟨assembled, n, hn, kind⟩ := attachable_eq_ok hi
  have arranged := h.arranged (by rw [assembled]; decide)
  split
  case h_1 => exact h
  case h_2 entries =>
    split
    case h_1 => exact h
    case h_2 =>
      refine h.attach assembled (fun _ x hx => ?_) fun hv => ?_
      · have hx := List.find?_eq_none.mp entries x (Array.mem_toList_iff.mpr hx)
        rw [Bool.or_eq_true, not_or] at hx
        have hfin : Scalar.isFinite x = true := by simpa using hx.1
        rw [← finite_rational hfin] at hx ⊢
        exact ⟨_, rfl, not_lt.mp (by simpa [zero_eq_finite] using hx.2)⟩
      · rw [arranged.mem_value hn, kind] at hv
        cases hv

theorem keeps_valid_setUtility (name : String) (source : TableSource Exact) :
    Keeps Valid (setUtility name source) := by
  intro d h
  unfold setUtility
  rw [ends_get_bind, ends_liftM_bind]
  refine ⟨fun i hi => ?_, fun _ _ => h⟩
  rw [ends_liftM_bind]
  refine ⟨fun t _ => ?_, fun _ _ => h⟩
  obtain ⟨assembled, n, hn, kind⟩ := attachable_eq_ok hi
  have arranged := h.arranged (by rw [assembled]; decide)
  split
  case isFalse => exact h
  case isTrue entries =>
    refine h.attach assembled (fun hc => ?_) fun _ x hx => ?_
    · rw [arranged.mem_chance hn, kind] at hc
      cases hc
    · exact Array.all_eq_true'.mp entries x hx

/-! ## Generation -/

/-- Nodes and their order are those of the first diagram. -/
structure SameNodes (d e : Diagram α) : Prop where
  phase : e.phase = d.phase
  nodes : e.nodes = d.nodes
  informationSets : e.informationSets = d.informationSets
  states : e.states = d.states
  chance : e.chance = d.chance
  decision : e.decision = d.decision
  value : e.value = d.value

theorem SameNodes.arranged {d e : Diagram α} (same : SameNodes d e) (h : Arranged d) :
    Arranged e := by
  obtain ⟨_, nodes, informationSets, states, chance, decision, value⟩ := same
  refine ⟨nodes ▸ h.names, nodes ▸ h.faultless, nodes ▸ states ▸ h.inner,
    nodes ▸ states ▸ h.outer, chance ▸ nodes ▸ h.chance, decision ▸ nodes ▸ h.decision,
    value ▸ nodes ▸ h.value, ?_⟩
  unfold informationSet
  rw [informationSets, states]
  exact h.parents

/-- The diagram while generation fills tables in. -/
structure Filling (d e : Diagram Exact) : Prop where
  same : SameNodes d e
  stored : Stored e

theorem Filling.refl {d : Diagram Exact} (h : Stored d) : Filling d d :=
  ⟨⟨rfl, rfl, rfl, rfl, rfl, rfl, rfl⟩, h⟩

theorem Filling.set {d e : Diagram Exact} (h : Filling d e) {i : ℕ} {t : Tensor Exact}
    (probability : i ∈ d.chance → ∀ x ∈ t.data, ∃ r : ℚ, x = finite r ∧ 0 ≤ r)
    (utility : i ∈ d.value → ∀ x ∈ t.data, Scalar.isFinite x = true) :
    Filling d { e with tables := e.tables.set i (some t) } where
  same := { h.same with }
  stored := h.stored.set (h.same.chance ▸ probability) (h.same.value ▸ utility)

theorem Filling.valid {d e : Diagram Exact} (h : Filling d e) (hd : Valid d)
    (assembled : d.phase = .assembled) : Valid e where
  names := h.same.nodes ▸ hd.names
  faultless := h.same.nodes ▸ hd.faultless
  arranged _ := h.same.arranged (hd.arranged (by rw [assembled]; decide))
  stored := h.stored
  signed hg := by
    rw [h.same.phase, assembled] at hg
    cases hg

theorem eq_of_mem_filled {shape : List ℕ} {x y : α} (h : y ∈ (Tensor.filled shape x).data) :
    y = x := Array.eq_of_mem_replicate h

theorem Arranged.stateNames_length_pos {d : Diagram α} (h : Arranged d) {j : ℕ}
    (hj : j ∈ d.chance) : 0 < (d.stateNames j).length := by
  rw [h.chance, mem_positionsWhere] at hj
  obtain ⟨n, hn, kind⟩ := hj
  have inner : n.isValue = false := by rw [Node.isValue, beq_iff_eq.mp kind]; rfl
  rw [stateNames, hn]
  exact Node.numStates_pos (h.faultless n (List.mem_of_getElem? hn)) inner

theorem Arranged.states_getD_eq {d : Diagram α} (h : Arranged d) {j : ℕ}
    (hj : j < d.states.length) : d.states.getD j 0 = (d.stateNames j).length := by
  obtain ⟨n, hn, -, count⟩ := h.inner j hj
  rw [List.getD_eq_getElem?_getD, count, stateNames, hn]
  rfl

theorem keeps_filling_fillProbability {d : Diagram Exact} (h : Arranged d) {o : GenerateOptions}
    {j : ℕ} (hj : j ∈ d.chance) : Keeps (Filling d) (fillProbability o j) := by
  intro e he
  unfold fillProbability
  rw [ends_get_bind]
  split
  case isFalse => exact he
  case isTrue =>
    by_cases default : o.defaultProbability = true
    swap
    · rw [Bool.not_eq_true] at default
      simp only [default]
      exact he
    · simp only [default]
      refine he.set (fun _ x hx => ?_) fun hv => ?_
      · rw [eq_of_mem_filled hx, one_eq_finite, ofNat_eq_finite, finite_div]
        · exact ⟨_, rfl, div_nonneg zero_le_one (Nat.cast_nonneg _)⟩
        · have := (he.same.arranged h).stateNames_length_pos (he.same.chance ▸ hj)
          exact_mod_cast this.ne'
      · rw [h.chance, mem_positionsWhere] at hj
        obtain ⟨n, hn, kind⟩ := hj
        rw [h.mem_value hn, beq_iff_eq.mp kind] at hv
        cases hv

theorem keeps_filling_fillUtility {d : Diagram Exact} (h : Arranged d) {v : ℕ}
    (hv : v ∈ d.value) : Keeps (Filling d) (fillUtility v) := by
  intro e he
  unfold fillUtility
  rw [ends_get_bind]
  split
  case isFalse => exact he
  case isTrue =>
    refine he.set (fun hj => ?_) fun _ x hx => ?_
    · rw [h.value, mem_positionsWhere] at hv
      obtain ⟨n, hn, kind⟩ := hv
      rw [h.mem_chance hn] at hj
      rw [Node.isValue, hj] at kind
      cases kind
    · rw [eq_of_mem_filled hx]
      rfl

theorem ends_settleUtility {d e : Diagram Exact} (h : Arranged d) (he : Filling d e)
    (o : GenerateOptions) :
    Ends (settleUtility o) e fun r e' => Filling d e' ∧
      (r = .ok () → o.defaultUtility = true → e'.pathUtility = some .additive) := by
  unfold settleUtility
  split
  case isTrue =>
    rw [ends_get_bind]
    have fill : Keeps (Filling d) (e.value.forM fillUtility) :=
      keeps_forM fun v hv => keeps_filling_fillUtility h (he.same.value ▸ hv)
    refine ends_bind ((fill e he).mono fun r t ht => ?_)
    cases r with
    | error => exact ⟨ht, fun h => by cases h⟩
    | ok => exact ⟨⟨{ ht.same with }, ⟨ht.stored.probability, ht.stored.utility⟩⟩, fun _ _ => rfl⟩
  case isFalse default =>
    exact ⟨⟨{ he.same with }, ⟨he.stored.probability, he.stored.utility⟩⟩,
      fun _ h => absurd h default⟩

/-! ## Signs -/

theorem mem_data_of_entry {t : Tensor α} {index : List ℕ} {x : α} (hx : t.entry index = .ok x) :
    x ∈ t.data := by
  unfold Tensor.entry at hx
  split at hx
  case h_1 y hy =>
    obtain rfl : y = x := by injection hx
    exact Array.mem_of_getElem? hy
  case h_2 => cases hx

/-- Sums of utility tables are finite. -/
theorem isFinite_utilityOf {d : Diagram Exact} (h : Stored d)
    (additive : d.pathUtility = some .additive) {p : Path} {u : Exact}
    (hu : d.utilityOf p = .ok u) : Scalar.isFinite u = true := by
  unfold utilityOf at hu
  rw [additive] at hu
  obtain ⟨terms, hterms, hu⟩ := except_bind_eq_ok.mp hu
  have finite_terms : ∀ x ∈ terms, Scalar.isFinite x = true := by
    intro x hx
    obtain ⟨i, hi, rfl⟩ := List.mem_iff_getElem.mp hx
    have run := except_mapM_eq_ok_iff.mp hterms
    have hl := run.length_eq
    have entry := run.get (i := i) (hl ▸ hi) hi
    have member := List.get_mem (d.value.filterMap fun v => (d.table? v).map (v, ·)) ⟨i, hl ▸ hi⟩
    obtain ⟨v, hv, table⟩ := List.mem_filterMap.mp member
    obtain ⟨t, ht, pair⟩ := Option.map_eq_some_iff.mp table
    rw [← pair] at entry
    exact h.utility v hv t ht _ (mem_data_of_entry entry)
  rw [← except_pure_eq_ok.mp hu, sum_eq_finite finite_terms]
  rfl

private theorem foldl_range (xs : List ℚ) (a b : ℚ) :
    ∃ low high : ℚ, (xs.map finite).foldl
        (fun (l, h) u => (Scalar.smaller l u, Scalar.larger h u)) (finite a, finite b) =
          ((finite low, finite high) : Exact × Exact) ∧
      low ∈ a :: xs ∧ high ∈ b :: xs ∧ low ≤ a ∧ b ≤ high ∧ ∀ x ∈ xs, low ≤ x ∧ x ≤ high := by
  induction xs generalizing a b with
  | nil =>
    exact ⟨a, b, rfl, List.mem_cons_self, List.mem_cons_self, le_rfl, le_rfl,
      fun x hx => by cases hx⟩
  | cons x xs ih =>
    obtain ⟨low, high, range, hlow, hhigh, ha, hb, bounds⟩ := ih (min a x) (max b x)
    have among {y z : ℚ} (hy : y ∈ z :: xs) {c : ℚ} (hz : z = c ∨ z = x) : y ∈ c :: x :: xs := by
      rcases List.mem_cons.mp hy with rfl | hy
      · rcases hz with rfl | rfl
        · exact List.mem_cons_self
        · exact List.mem_cons_of_mem _ List.mem_cons_self
      · exact List.mem_cons_of_mem _ (List.mem_cons_of_mem _ hy)
    refine ⟨low, high, ?_, among hlow (min_choice a x), among hhigh (max_choice b x),
      ha.trans (min_le_left _ _), (le_max_left _ _).trans hb, ?_⟩
    · rw [List.map_cons, List.foldl_cons]
      simp only [smaller_finite, larger_finite]
      exact range
    · intro y hy
      rcases List.mem_cons.mp hy with rfl | hy
      · exact ⟨ha.trans (min_le_right _ _), (le_max_right _ _).trans hb⟩
      · exact bounds y hy

/-- There is a path. -/
theorem Arranged.inRange_zeros {d : Diagram α} (h : Arranged d) :
    inRange d.states (d.states.map fun _ => 0) = true := by
  rw [inRange_iff_forall₂, List.forall₂_map_left_iff, List.forall₂_same]
  exact fun k hk => h.states_pos hk

/-- The least and the greatest path utility. -/
structure IsRange (d : Diagram Exact) (low high : ℚ) : Prop where
  bounds : ∀ p, inRange d.states p = true → ∀ u, d.utilityOf p = .ok u →
    ∃ r, u = finite r ∧ low ≤ r ∧ r ≤ high
  low : ∃ p, inRange d.states p = true ∧ d.utilityOf p = .ok (finite low)
  high : ∃ p, inRange d.states p = true ∧ d.utilityOf p = .ok (finite high)

/-- The range is that of the list of all utilities. -/
theorem utilityRange_eq [Scalar α] (d : Diagram α) :
    d.utilityRange = (do
      let utilities ← (Paths.ofStates d.states).toList.mapM d.utilityOf
      pure (utilities.foldl (fun (low, high) u => (Scalar.smaller low u, Scalar.larger high u))
        (Scalar.infinity, -Scalar.infinity))) := by
  rw [utilityRange, Paths.foldM_eq_foldlM, Paths.ofStates, Paths.toList_ofCoordinates]
  exact except_foldlM_eq_mapM ..

/-- The range of path utilities is finite. -/
theorem utilityRange_eq_ok {d : Diagram Exact} (arranged : Arranged d) (stored : Stored d)
    (additive : d.pathUtility = some .additive) {range : Exact × Exact}
    (h : d.utilityRange = .ok range) :
    ∃ low high : ℚ, range = (finite low, finite high) ∧ d.IsRange low high := by
  rw [utilityRange_eq] at h
  obtain ⟨us, run, h⟩ := except_bind_eq_ok.mp h
  have values : us = (us.map rational).map finite := by
    refine (map_finite_map_rational fun u hu => ?_).symm
    obtain ⟨p, _, hp⟩ := exists_of_mem_except_mapM run hu
    exact isFinite_utilityOf stored additive hp
  have member {p : Path} (hp : inRange d.states p = true) {u : Exact}
      (hu : d.utilityOf p = .ok u) : u ∈ us := by
    obtain ⟨u', hu', run⟩ := except_eq_ok_of_mem_mapM run (Paths.mem_toList_ofStates.mpr hp)
    rw [hu, Except.ok.injEq] at run
    rwa [run]
  have attained {r : ℚ} (hr : r ∈ us.map rational) :
      ∃ p, inRange d.states p = true ∧ d.utilityOf p = .ok (finite r) := by
    have hu : finite r ∈ us := by
      rw [values]
      exact List.mem_map_of_mem hr
    obtain ⟨p, hp, value⟩ := exists_of_mem_except_mapM run hu
    exact ⟨p, Paths.mem_toList_ofStates.mp hp, value⟩
  obtain ⟨first, hfirst, -⟩ := except_eq_ok_of_mem_mapM run
    (Paths.mem_toList_ofStates.mpr arranged.inRange_zeros)
  obtain ⟨x, xs, split⟩ : ∃ x xs, us.map rational = x :: xs :=
    List.exists_cons_of_ne_nil fun empty => by
      rw [List.map_eq_nil_iff.mp empty] at hfirst
      cases hfirst
  obtain ⟨low, high, range_eq, hlow, hhigh, atLow, atHigh, bounds⟩ := foldl_range xs x x
  refine ⟨low, high, ?_, fun p hp u hu => ?_, attained (split ▸ hlow), attained (split ▸ hhigh)⟩
  · rw [← except_pure_eq_ok.mp h, values, split, ← range_eq]
    rfl
  · have hr : rational u ∈ x :: xs := split ▸ List.mem_map_of_mem (member hp hu)
    have hfin : u = finite (rational u) :=
      (finite_rational (isFinite_utilityOf stored additive hu)).symm
    refine ⟨rational u, hfin, ?_⟩
    rcases List.mem_cons.mp hr with h | h
    · exact h ▸ ⟨atLow, atHigh⟩
    · exact bounds _ h

/-- Nothing is shifted, unless a sign is asked for and the extremes of the utilities, which then
decide on the shift, are found. -/
theorem ends_settleSign [Scalar α] (o : GenerateOptions) (d : Diagram α) :
    Ends (settleSign o) d fun r e => ∃ shift sign, e = { d with shift, sign } ∧
      ((shift = 0 ∧ sign = .unrestricted) ∨
        r = .ok () ∧ (o.positivePathUtility || o.negativePathUtility) = true ∧
        ∃ low high, d.utilityRange = .ok (low, high) ∧
          ((shift = 1 - low ∧ sign = .positive) ∨ (shift = -1 - high ∧ sign = .negative))) := by
  unfold settleSign
  refine ends_bind ?_
  rw [ends_modify]
  dsimp only
  split
  case isFalse => exact ⟨0, .unrestricted, rfl, .inl ⟨rfl, rfl⟩⟩
  case isTrue asked =>
    rw [ends_get_bind, ends_liftM_bind]
    refine ⟨fun range hrange => ?_, fun _ _ => ⟨0, .unrestricted, rfl, .inl ⟨rfl, rfl⟩⟩⟩
    obtain ⟨low, high⟩ := range
    dsimp only
    split
    case isTrue => exact ⟨1 - low, .positive, rfl,
        .inr ⟨rfl, asked, low, high, hrange, .inl ⟨rfl, rfl⟩⟩⟩
    case isFalse => exact ⟨-1 - high, .negative, rfl,
        .inr ⟨rfl, asked, low, high, hrange, .inr ⟨rfl, rfl⟩⟩⟩

/-- The shift that generation settles makes utilities have the sign that it claims. -/
theorem signed_of_settled {d : Diagram Exact} (arranged : Arranged d) (stored : Stored d)
    {shift : Exact} {sign : UtilitySign}
    (h : (shift = 0 ∧ sign = .unrestricted) ∨ d.pathUtility = some .additive ∧
      ∃ low high, d.utilityRange = .ok (low, high) ∧
        ((shift = 1 - low ∧ sign = .positive) ∨ (shift = -1 - high ∧ sign = .negative))) :
    Signed { d with shift, sign, phase := .generated } := by
  rcases h with ⟨rfl, rfl⟩ | ⟨additive, low, high, range, h⟩
  · exact ⟨rfl, fun h => (by cases h), fun h => (by cases h)⟩
  · obtain ⟨low, high, extremes, within⟩ := utilityRange_eq_ok arranged stored additive range
    obtain ⟨rfl, rfl⟩ := Prod.mk.inj extremes
    rcases h with ⟨rfl, rfl⟩ | ⟨rfl, rfl⟩
    · refine ⟨rfl, fun _ p hp u hu => ?_, fun h => by cases h⟩
      obtain ⟨r, rfl, hr, _⟩ := within.bounds p hp u hu
      refine ⟨r + (1 - low), by rw [one_eq_finite, finite_sub, finite_add], by linarith⟩
    · refine ⟨rfl, fun h => (by cases h), fun _ p hp u hu => ?_⟩
      obtain ⟨r, rfl, _, hr⟩ := within.bounds p hp u hu
      refine ⟨r + (-1 - high), by rw [one_eq_finite, finite_neg, finite_sub, finite_add],
        by linarith⟩

/-- A sign is only settled for utilities that are sums. -/
theorem defaultUtility_of_optionFault? {o : GenerateOptions}
    (h : (optionFault? o : Option (OptionFault α)) = none)
    (asked : (o.positivePathUtility || o.negativePathUtility) = true) :
    o.defaultUtility = true := by
  unfold optionFault? at h
  split at h
  case isTrue => cases h
  case isFalse =>
    split at h
    case isTrue => cases h
    case isFalse unset => simpa [asked] using unset

/-- Generation fills in probabilities, settles the utility, and then the sign. -/
theorem succeeds_generate_iff [Scalar α] {o : GenerateOptions} {d e : Diagram α} :
    Succeeds (generate o) d () e ↔ d.phase = .assembled ∧
      (optionFault? o : Option (OptionFault α)) = none ∧
      ∃ d₁ d₂ d₃, Succeeds (d.chance.forM (fillProbability o)) d () d₁ ∧
        Succeeds (settleUtility o) d₁ () d₂ ∧ Succeeds (settleSign o) d₂ () d₃ ∧
        e = { d₃ with phase := .generated } := by
  unfold generate
  rw [succeeds_get_bind]
  cases phase : d.phase with
  | building => exact iff_of_false not_succeeds_throw fun h => by cases h.1
  | generated => exact iff_of_false not_succeeds_throw fun h => by cases h.1
  | assembled =>
    dsimp only
    rw [and_iff_right rfl]
    cases (optionFault? o : Option (OptionFault α)) with
    | some fault => exact iff_of_false not_succeeds_throw fun h => by cases h.1
    | none =>
      dsimp only
      rw [and_iff_right rfl]
      constructor
      · intro run
        obtain ⟨_, d₁, filled, run⟩ := succeeds_bind.mp run
        obtain ⟨_, d₂, settled, run⟩ := succeeds_bind.mp run
        obtain ⟨_, d₃, signed, run⟩ := succeeds_bind.mp run
        exact ⟨d₁, d₂, d₃, filled, settled, signed, succeeds_modify.mp run⟩
      · rintro ⟨d₁, d₂, d₃, filled, settled, signed, last⟩
        exact succeeds_bind.mpr ⟨_, d₁, filled, succeeds_bind.mpr ⟨_, d₂, settled,
          succeeds_bind.mpr ⟨_, d₃, signed, succeeds_modify.mpr last⟩⟩⟩

theorem succeeds_settleSign [Scalar α] {o : GenerateOptions} {d e : Diagram α}
    (run : Succeeds (settleSign o) d () e) : ∃ shift sign, e = { d with shift, sign } ∧
      ((o.positivePathUtility || o.negativePathUtility) = false →
        shift = 0 ∧ sign = .unrestricted) := by
  have settled := ends_settleSign o d
  unfold Ends at settled
  rw [run] at settled
  obtain ⟨shift, sign, rfl, cases⟩ := settled
  refine ⟨shift, sign, rfl, fun unasked => cases.resolve_right ?_⟩
  rintro ⟨-, asked, -⟩
  exact Bool.false_ne_true (unasked.symm.trans asked)

theorem keeps_valid_generate (o : GenerateOptions) : Keeps Valid (generate o) := by
  intro d h
  unfold generate
  rw [ends_get_bind]
  split
  case h_1 => exact h
  case h_2 => exact h
  case h_3 assembled =>
    split
    case h_1 => exact h
    case h_2 noFault =>
      have arranged := h.arranged (by rw [assembled]; decide)
      have fill : Keeps (Filling d) (d.chance.forM (fillProbability o)) :=
        keeps_forM fun j hj => keeps_filling_fillProbability arranged hj
      refine ends_bind ((fill d (.refl h.stored)).mono fun r e he => ?_)
      cases r with
      | error => exact he.valid h assembled
      | ok =>
        refine ends_bind ((ends_settleUtility arranged he o).mono fun r e he => ?_)
        obtain ⟨he, additive⟩ := he
        cases r with
        | error => exact he.valid h assembled
        | ok =>
          refine ends_bind ((ends_settleSign o e).mono fun r e' he' => ?_)
          obtain ⟨shift, sign, rfl, settled⟩ := he'
          cases r with
          | error =>
            exact Filling.valid ⟨{ he.same with }, ⟨he.stored.probability, he.stored.utility⟩⟩
              h assembled
          | ok =>
            rw [ends_modify]
            have arranged' := he.same.arranged arranged
            refine ⟨arranged'.names, arranged'.faultless, fun _ => { arranged' with },
              ⟨he.stored.probability, he.stored.utility⟩, fun _ => ?_⟩
            refine signed_of_settled arranged' he.stored (settled.imp_right ?_)
            rintro ⟨-, asked, range⟩
            exact ⟨additive rfl (defaultUtility_of_optionFault? noFault asked), range⟩

theorem keeps_valid_setPathUtility (u : PathUtility Exact) : Keeps Valid (setPathUtility u) := by
  intro d h
  unfold setPathUtility
  rw [ends_get_bind]
  split
  case isTrue => exact h
  case isFalse generated =>
    have generated : d.phase = .generated := not_not.mp generated
    have arranged := h.arranged (by rw [generated]; decide)
    exact ⟨h.names, h.faultless, fun _ => { arranged with },
      ⟨h.stored.probability, h.stored.utility⟩,
      fun _ => ⟨rfl, fun h => (by cases h), fun h => (by cases h)⟩⟩

/-! ## Runs -/

theorem keeps_valid (op : Operation) : Keeps Valid op.action := by
  cases op with
  | addNode n => exact keeps_valid_addNode n
  | generateArcs => exact keeps_valid_generateArcs
  | setProbabilities name source => exact keeps_valid_setProbabilities name source
  | setUtility name source => exact keeps_valid_setUtility name source
  | generate o => exact keeps_valid_generate o
  | setPathUtility u => exact keeps_valid_setPathUtility u

/-- Every reachable diagram is valid. -/
theorem Reachable.valid {d : Diagram Exact} (h : Reachable d) : Valid d := by
  induction h with
  | empty strict => exact valid_empty strict
  | step _ op ih => exact keeps_valid op _ ih

/-! ## Diagrams from files -/

theorem after_eq_ok_iff {d e : Diagram α} {action : DiagramM α Unit} :
    d.after action = .ok e ↔ Succeeds action d () e := by
  unfold after Succeeds
  split
  case h_1 u e' run => rw [run, Except.ok.injEq, Prod.mk.injEq, and_iff_right rfl]
  case h_2 e' run => exact iff_of_false nofun (by rw [run]; exact fun h => by cases h)

/-- What an action keeps holds of the diagram after it. -/
theorem holds_after {P : Diagram α → Prop} {action : DiagramM α Unit}
    (keeps : Keeps P action) {d e : Diagram α} (h : P d) (run : d.after action = .ok e) : P e := by
  have last := keeps d h
  unfold Ends at last
  unfold Diagram.after at run
  split at run
  case h_1 _ e' result =>
    rw [result] at last
    rwa [← Except.ok.inj run]
  case h_2 => cases run

theorem Reachable.after {d e : Diagram Exact} (h : Reachable d) {action : DiagramM Exact Unit}
    (keeps : Keeps Reachable action) (run : d.after action = .ok e) : Reachable e :=
  holds_after keeps h run

end Influence.Diagram

namespace Influence.DiagramFile

open Diagram

theorem keeps_reachable_attachTables (f : DiagramFile Exact) :
    Keeps Reachable f.attachTables := by
  have attach (name : String) (n : Nested Exact) (op : Tensor Exact → Operation) :
      Keeps Reachable ((do
        let t ← (tensor (← get) name n : Except (DiagramError Exact) _)
        (op t).action) : DiagramM Exact Unit) := by
    intro d h
    rw [ends_get_bind, ends_liftM_bind]
    exact ⟨fun t _ => keeps_reachable (op t) d h, fun _ _ => h⟩
  refine keeps_bind (keeps_forM fun b _ => ?_) fun _ => keeps_forM fun b _ => ?_
  · exact attach b.1 b.2 fun t => .setProbabilities b.1 (.plain t)
  · exact attach b.1 b.2 fun t => .setUtility b.1 (.plain t)

/-- The diagram of a file is reachable before it is generated. -/
theorem reachable_of_assemble {f : DiagramFile Exact} {d : Diagram Exact}
    (h : f.assemble = .ok d) : Reachable d := by
  obtain ⟨arranged, h, attached⟩ := except_bind_eq_ok.mp h
  have first : Reachable arranged := by
    refine (Reachable.empty f.generate.strictProbabilities).after ?_ h
    exact keeps_bind (keeps_forM fun n _ => keeps_reachable (.addNode n)) fun _ =>
      keeps_reachable .generateArcs
  exact first.after (keeps_reachable_attachTables f) attached

/-- The diagram of a file is reachable. -/
theorem reachable_of_build {f : DiagramFile Exact} {d : Diagram Exact} (h : f.build = .ok d) :
    Reachable d := by
  obtain ⟨assembled, h, generated⟩ := except_bind_eq_ok.mp h
  exact (reachable_of_assemble h).after (keeps_reachable (.generate f.generate.options)) generated

end Influence.DiagramFile
