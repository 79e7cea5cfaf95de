import Influence.Proofs.MadeTables
import Influence.Proofs.Reachable
import Influence.Proofs.Strategies

/-!
# Diagrams over any scalars

`Attained` diagrams are those that operations, failed ones included, lead to from a diagram
without nodes, over any scalars and with tables that a program can make.  Each operation keeps
`Consistent`: from assembly on the nodes are arranged and every node has a place for a table,
every table fits the node that it is attached to (`Fitting`), and a generated diagram has a
table for every chance node (`Attained.consistent`).  What is `Structural`, a property of the nodes
and their order, is a matter of assembly alone.

Over exact scalars an attained diagram is reachable (`Attained.reachable`), and the diagrams of
definition files are attained (`attained_of_build`).
-/

namespace Influence

/-- What the default tables rely on: zero and equal shares are finite, and no share is below
zero.  It holds of exact scalars (`Scalar.hasShares_exact`) and of doubles
(`Scalar.hasShares_double`). -/
structure Scalar.HasShares (α : Type) [Scalar α] : Prop where
  zero : Scalar.isFinite (0 : α) = true
  share : ∀ n, 0 < n → Scalar.isFinite (1 / Scalar.ofNat n : α) = true ∧
    ¬ (1 / Scalar.ofNat n : α) < 0

theorem Scalar.hasShares_exact : Scalar.HasShares Exact where
  zero := rfl
  share n hn := by
    have nonzero : (n : ℚ) ≠ 0 := Nat.cast_ne_zero.mpr hn.ne'
    rw [Extended.one_eq_finite, Extended.ofNat_eq_finite, Extended.finite_div 1 nonzero]
    refine ⟨rfl, ?_⟩
    rw [Extended.zero_eq_finite, Extended.finite_lt, not_lt]
    exact div_nonneg zero_le_one (Nat.cast_nonneg n)

namespace Diagram

variable {α : Type} [Scalar α]

/-! ## Operations -/

/-- Operations, failed ones included, lead to the diagram. -/
inductive Attained : Diagram α → Prop
  | empty (strict : Bool) : Attained (.empty strict)
  | addNode {d : Diagram α} (h : Attained d) (n : Node) :
      Attained ((Diagram.addNode n).run.run d).2
  | generateArcs {d : Diagram α} (h : Attained d) :
      Attained (Diagram.generateArcs.run.run d).2
  | setProbabilities {d : Diagram α} (h : Attained d) (name : String) {source : TableSource α}
      (made : source.Made) : Attained ((Diagram.setProbabilities name source).run.run d).2
  | setUtility {d : Diagram α} (h : Attained d) (name : String) {source : TableSource α}
      (made : source.Made) : Attained ((Diagram.setUtility name source).run.run d).2
  | generate {d : Diagram α} (h : Attained d) (o : GenerateOptions) :
      Attained ((Diagram.generate o).run.run d).2
  | setPathUtility {d : Diagram α} (h : Attained d) (u : PathUtility α) :
      Attained ((Diagram.setPathUtility u).run.run d).2

theorem Attained.reachable {d : Diagram Exact} (h : Attained d) : Reachable d := by
  induction h with
  | empty strict => exact .empty strict
  | addNode _ n ih => exact ih.step (.addNode n)
  | generateArcs _ ih => exact ih.step .generateArcs
  | setProbabilities _ name _ ih => exact ih.step (.setProbabilities name _)
  | setUtility _ name _ ih => exact ih.step (.setUtility name _)
  | generate _ o ih => exact ih.step (.generate o)
  | setPathUtility _ u ih => exact ih.step (.setPathUtility u)

/-! ## The invariant -/

/-- The uniform table of a chance node. -/
def uniform (d : Diagram α) (j : ℕ) : Tensor α :=
  .filled (d.expectedShape j) (1 / Scalar.ofNat (d.stateNames j).length)

/-- A table that fits the node that it is attached to. -/
structure Fitting (d : Diagram α) (i : ℕ) (t : Tensor α) : Prop where
  owner : i ∈ d.chance ∨ i ∈ d.value
  shape : t.shape = d.expectedShape i
  counted : t.Counted
  isFinite : ∀ x ∈ t.data, Scalar.isFinite x = true
  nonnegative : i ∈ d.chance → ∀ x ∈ t.data, ¬ x < 0
  /-- In a strict diagram only the default table is attached without a look at its rows. -/
  rows : i ∈ d.chance → d.strict = true → t = d.uniform i ∨ unnormalizedRow? t = none

/-- What every operation keeps. -/
structure Consistent (d : Diagram α) : Prop where
  names : (d.nodes.map (·.name)).Nodup
  faultless : ∀ n ∈ d.nodes, n.fault? = none
  bare : d.phase = .building → d.tables = []
  arranged : d.phase ≠ .building → Arranged d
  places : d.phase ≠ .building →
    d.informationSets.length = d.nodes.length ∧ d.tables.length = d.nodes.length
  fitting : ∀ i t, d.table? i = some t → Fitting d i t
  complete : d.phase = .generated → ∀ j ∈ d.chance, (d.table? j).isSome = true

omit [Scalar α] in
theorem table?_of_tables_eq_nil {d : Diagram α} (h : d.tables = []) (i : ℕ) :
    d.table? i = none := by
  rw [table?, h]
  rfl

theorem consistent_empty (strict : Bool) : Consistent (.empty strict : Diagram α) where
  names := List.nodup_nil
  faultless n hn := by cases hn
  bare _ := rfl
  arranged h := absurd rfl h
  places h := absurd rfl h
  fitting i t ht := by
    rw [table?_of_tables_eq_nil rfl] at ht
    cases ht
  complete h := by cases h

/-! ## Assembly -/

theorem keeps_consistent_addNode (n : Node) : Keeps (Consistent (α := α)) (addNode n) := by
  intro d h
  refine (ends_addNode n d).mono fun _ e he => ?_
  rcases he with rfl | ⟨building, faultless, fresh, rfl⟩
  · exact h
  · have bare := h.bare building
    refine ⟨?_, ?_, fun _ => bare, fun hb => absurd building hb, fun hb => absurd building hb, ?_,
      fun hg => ?_⟩
    · rw [List.map_append, List.nodup_append]
      refine ⟨h.names, List.nodup_singleton _, ?_⟩
      intro a ha b hb same
      rw [same, List.mem_singleton.mp hb] at ha
      exact fresh ha
    · intro m hm
      rcases List.mem_append.mp hm with hm | hm
      · exact h.faultless m hm
      · rwa [List.mem_singleton.mp hm]
    · intro i t ht
      have table : d.table? i = some t := ht
      rw [table?_of_tables_eq_nil bare] at table
      cases table
    · rw [show d.phase = .generated from hg] at building
      cases building

omit [Scalar α] in
/-- Every node has a place for its parents and one for its table. -/
theorem places_ordered {d : Diagram α} {parents : List (List ℕ)} {placed : List ℕ}
    (placing : Placing d.nodes parents placed) :
    let e := d.ordered parents (placed ++ positionsWhere d.nodes Node.isValue)
    e.informationSets.length = e.nodes.length ∧ e.tables.length = e.nodes.length := by
  have listed : ((placed ++ positionsWhere d.nodes Node.isValue).filterMap (d.nodes[·]?)).length =
      (placed ++ positionsWhere d.nodes Node.isValue).length := by
    rw [List.filterMap_length_eq_length]
    intro p hp
    have inside := List.mem_range.mp (placing.perm_range.mem_iff.mp hp)
    rw [List.getElem?_eq_getElem inside]
    rfl
  intro e
  constructor
  · exact (List.length_map ..).trans listed.symm
  · refine (List.length_replicate ..).trans ?_
    rw [← List.length_range (n := d.nodes.length), ← placing.perm_range.length_eq]
    exact listed.symm

theorem keeps_consistent_generateArcs : Keeps (Consistent (α := α)) generateArcs := by
  intro d h
  refine (ends_generateArcs d).mono fun _ e he => ?_
  rcases he with rfl | ⟨_, parents, placed, -, placing, rfl⟩
  · exact h
  · have arranged := arranged_ordered h.names h.faultless placing
    refine ⟨arranged.names, arranged.faultless, fun hb => (by cases hb), fun _ => arranged,
      fun _ => places_ordered placing, fun i t ht => ?_, fun hg => (by cases hg)⟩
    change ((List.replicate d.nodes.length none)[i]?).join = some t at ht
    rw [List.getElem?_replicate] at ht
    split at ht <;> cases ht

/-! ## Tables -/

omit [Scalar α] in
theorem table?_set_self {d : Diagram α} {i : ℕ} (hi : i < d.tables.length) (t : Tensor α) :
    ({ d with tables := d.tables.set i (some t) } : Diagram α).table? i = some t := by
  rw [table?, List.getElem?_set_self hi]
  rfl

omit [Scalar α] in
/-- Attaching a table leaves no node without one that had one. -/
theorem isSome_table?_set {d : Diagram α} {i k : ℕ} {t : Tensor α}
    (h : (d.table? k).isSome = true) :
    (({ d with tables := d.tables.set i (some t) } : Diagram α).table? k).isSome = true := by
  unfold table? at h ⊢
  rw [List.getElem?_set]
  split
  case isTrue same =>
    split
    case isTrue => rfl
    case isFalse outside =>
      rw [← same, List.getElem?_eq_none (Nat.le_of_not_lt outside)] at h
      cases h
  case isFalse => exact h

/-- Attaching a table that fits to a diagram that is not generated yet. -/
theorem Consistent.attach {d : Diagram α} (h : Consistent d) (assembled : d.phase = .assembled)
    {i : ℕ} {t : Tensor α} (fitting : Fitting d i t) :
    Consistent { d with tables := d.tables.set i (some t) } where
  names := h.names
  faultless := h.faultless
  bare hb := by
    rw [show d.phase = .building from hb] at assembled
    cases assembled
  arranged hb := { h.arranged hb with }
  places hb := ⟨(h.places hb).1, (List.length_set ..).trans (h.places hb).2⟩
  fitting j u hu := by
    rcases table?_set hu with ⟨rfl, rfl⟩ | hu
    · exact { fitting with }
    · exact { h.fitting j u hu with }
  complete hg := by
    rw [show d.phase = .generated from hg] at assembled
    cases assembled

theorem keeps_consistent_setProbabilities (name : String) {source : TableSource α}
    (made : source.Made) : Keeps Consistent (setProbabilities name source) := by
  intro d h
  unfold setProbabilities
  rw [ends_get_bind, ends_liftM_bind]
  refine ⟨fun i hi => ?_, fun _ _ => h⟩
  rw [ends_liftM_bind]
  refine ⟨fun t ht => ?_, fun _ _ => h⟩
  rcases attachable_eq_ok hi with ⟨assembled, n, hn, kind⟩
  have arranged := h.arranged (by rw [assembled]; decide)
  rcases made.unpack ht with ⟨shape, counted⟩
  split
  case h_1 => exact h
  case h_2 entries =>
    have sound (x : α) (hx : x ∈ t.data) : Scalar.isFinite x = true ∧ ¬ x < 0 := by
      simpa using List.find?_eq_none.mp entries x (Array.mem_toList_iff.mpr hx)
    split
    case h_1 => exact h
    case h_2 rows =>
      refine h.attach assembled ⟨.inl ((arranged.mem_chance hn).mpr kind), shape, counted,
        fun x hx => (sound x hx).1, fun _ x hx => (sound x hx).2, fun _ strict => .inr ?_⟩
      rwa [if_pos strict] at rows

theorem keeps_consistent_setUtility (name : String) {source : TableSource α}
    (made : source.Made) : Keeps Consistent (setUtility name source) := by
  intro d h
  unfold setUtility
  rw [ends_get_bind, ends_liftM_bind]
  refine ⟨fun i hi => ?_, fun _ _ => h⟩
  rw [ends_liftM_bind]
  refine ⟨fun t ht => ?_, fun _ _ => h⟩
  rcases attachable_eq_ok hi with ⟨assembled, n, hn, kind⟩
  have arranged := h.arranged (by rw [assembled]; decide)
  rcases made.unpack ht with ⟨shape, counted⟩
  have notChance : i ∉ d.chance := by
    rw [arranged.mem_chance hn, kind]
    decide
  split
  case isFalse => exact h
  case isTrue entries =>
    exact h.attach assembled ⟨.inr ((arranged.mem_value hn).mpr kind), shape, counted,
      fun x hx => Array.all_eq_true'.mp entries x hx, fun hi => absurd hi notChance,
      fun hi => absurd hi notChance⟩

/-! ## Generation -/

/-- The diagram while generation attaches default tables to the first one. -/
structure Supplied (d e : Diagram α) : Prop where
  same : SameNodes d e
  strict : e.strict = d.strict
  places : e.tables.length = d.tables.length
  fitting : ∀ i t, e.table? i = some t → Fitting d i t

theorem Consistent.supplied {d : Diagram α} (h : Consistent d) : Supplied d d :=
  ⟨⟨rfl, rfl, rfl, rfl, rfl, rfl, rfl⟩, rfl, rfl, h.fitting⟩

theorem Supplied.set {d e : Diagram α} (h : Supplied d e) {i : ℕ} {t : Tensor α}
    (fitting : Fitting d i t) : Supplied d { e with tables := e.tables.set i (some t) } where
  same := { h.same with }
  strict := h.strict
  places := (List.length_set ..).trans h.places
  fitting j u hu := by
    rcases table?_set hu with ⟨rfl, rfl⟩ | hu
    · exact fitting
    · exact h.fitting j u hu

omit [Scalar α] in
theorem SameNodes.expectedShape_eq {d e : Diagram α} (same : SameNodes d e) (i : ℕ) :
    e.expectedShape i = d.expectedShape i := by
  unfold expectedShape informationShape informationSet
  rw [same.nodes, same.informationSets, same.states]

/-- A table that fits goes on fitting where nodes and strictness stay. -/
theorem Fitting.transfer {d e : Diagram α} {i : ℕ} {t : Tensor α} (h : Fitting d i t)
    (same : SameNodes d e) (strict : e.strict = d.strict) : Fitting e i t := by
  have names : e.stateNames i = d.stateNames i := by rw [stateNames, stateNames, same.nodes]
  have uniform : e.uniform i = d.uniform i := by
    rw [Diagram.uniform, Diagram.uniform, names, same.expectedShape_eq]
  refine ⟨same.chance ▸ same.value ▸ h.owner, (same.expectedShape_eq i).symm ▸ h.shape, h.counted,
    h.isFinite, same.chance ▸ h.nonnegative, ?_⟩
  rw [same.chance, strict, uniform]
  exact h.rows

/-- The diagram is consistent again once the phase is settled. -/
theorem Supplied.consistent {d e : Diagram α} (h : Supplied d e) (hd : Consistent d)
    (assembled : d.phase = .assembled) : Consistent e := by
  have settled : d.phase ≠ .building := by
    rw [assembled]
    decide
  have arranged := h.same.arranged (hd.arranged settled)
  refine ⟨arranged.names, arranged.faultless, fun hb => ?_, fun _ => arranged, fun _ => ?_,
    fun i t ht => (h.fitting i t ht).transfer h.same h.strict, fun hg => ?_⟩
  · rw [h.same.phase, assembled] at hb
    cases hb
  · rw [h.same.informationSets, h.same.nodes, h.places]
    exact hd.places settled
  · rw [h.same.phase, assembled] at hg
    cases hg

/-- The uniform table fits its chance node. -/
theorem fitting_uniform (laws : Scalar.HasShares α) {d : Diagram α} (arranged : Arranged d) {j : ℕ}
    (hj : j ∈ d.chance) : Fitting d j (d.uniform j) := by
  have share := laws.share _ (arranged.stateNames_length_pos hj)
  refine ⟨.inl hj, rfl, Tensor.counted_filled _ _, fun x hx => ?_, fun _ x hx => ?_,
    fun _ _ => .inl rfl⟩
  · rw [eq_of_mem_filled hx]
    exact share.1
  · rw [eq_of_mem_filled hx]
    exact share.2

omit [Scalar α] in
theorem Arranged.not_mem_chance_of_mem_value {d : Diagram α} (h : Arranged d) {v : ℕ}
    (hv : v ∈ d.value) : v ∉ d.chance := by
  rw [h.value, mem_positionsWhere] at hv
  rcases hv with ⟨n, hn, kind⟩
  rw [h.mem_chance hn]
  intro chance
  rw [Node.isValue, chance] at kind
  cases kind

theorem fitting_zeros (laws : Scalar.HasShares α) {d : Diagram α} (arranged : Arranged d) {v : ℕ}
    (hv : v ∈ d.value) : Fitting d v (.filled (d.expectedShape v) 0) := by
  have notChance := arranged.not_mem_chance_of_mem_value hv
  refine ⟨.inr hv, rfl, Tensor.counted_filled _ _, fun x hx => ?_, fun hj => absurd hj notChance,
    fun hj => absurd hj notChance⟩
  rw [eq_of_mem_filled hx]
  exact laws.zero

omit [Scalar α] in
theorem Arranged.lt_length_nodes {d : Diagram α} (h : Arranged d) {i : ℕ}
    (hi : i ∈ d.chance ∨ i ∈ d.value) : i < d.nodes.length := by
  rw [h.chance, h.value, mem_positionsWhere, mem_positionsWhere] at hi
  rcases hi with ⟨n, hn, -⟩ | ⟨n, hn, -⟩ <;> exact (List.getElem?_eq_some_iff.mp hn).1

/-- Attaching one default table. -/
theorem Supplied.attach {d e : Diagram α} (he : Supplied d e) (h : Consistent d)
    (assembled : d.phase ≠ .building) {i : ℕ} {t : Tensor α} (fitting : Fitting d i t) :
    let e' := { e with tables := e.tables.set i (some t) }
    Supplied d e' ∧ (e'.table? i).isSome = true ∧
      ∀ k, (e.table? k).isSome = true → (e'.table? k).isSome = true := by
  have place : i < e.tables.length := by
    rw [he.places, (h.places assembled).2]
    exact (h.arranged assembled).lt_length_nodes fitting.owner
  refine ⟨he.set fitting, ?_, fun k before => isSome_table?_set before⟩
  exact Option.isSome_iff_exists.mpr ⟨t, table?_set_self place t⟩

/-- Filling in for one chance node: where this succeeds the node has a table. -/
theorem ends_fillProbability (laws : Scalar.HasShares α) {d : Diagram α} (h : Consistent d)
    (assembled : d.phase ≠ .building) (o : GenerateOptions) {j : ℕ} (hj : j ∈ d.chance)
    (e : Diagram α) (he : Supplied d e) :
    Ends (fillProbability o j) e fun r e' => Supplied d e' ∧
      (r = .ok ⟨⟩ → (e'.table? j).isSome = true) ∧
      ∀ k, (e.table? k).isSome = true → (e'.table? k).isSome = true := by
  unfold fillProbability
  rw [ends_get_bind]
  split
  case isFalse attached =>
    have has : (e.table? j).isSome = true := by
      rw [← Option.ne_none_iff_isSome]
      simpa using attached
    exact ⟨he, fun _ => has, fun _ before => before⟩
  case isTrue =>
    by_cases default : o.defaultProbability = true
    · simp only [default]
      have table : Tensor.filled (e.expectedShape j) (1 / Scalar.ofNat (e.stateNames j).length) =
          d.uniform j := by
        rw [uniform, he.same.expectedShape_eq, stateNames, stateNames, he.same.nodes]
      have fitting := table ▸ fitting_uniform laws (h.arranged assembled) hj
      rcases he.attach h assembled fitting with ⟨supplied, has, stays⟩
      exact ⟨supplied, fun _ => has, stays⟩
    · rw [Bool.not_eq_true] at default
      simp only [default]
      exact ⟨he, fun failed => (by cases failed), fun _ before => before⟩

theorem ends_fillUtility (laws : Scalar.HasShares α) {d : Diagram α} (h : Consistent d)
    (assembled : d.phase ≠ .building) {v : ℕ} (hv : v ∈ d.value) (e : Diagram α)
    (he : Supplied d e) :
    Ends (fillUtility v) e fun r e' => Supplied d e' ∧
      (r = .ok ⟨⟩ → (e'.table? v).isSome = true) ∧
      ∀ k, (e.table? k).isSome = true → (e'.table? k).isSome = true := by
  unfold fillUtility
  rw [ends_get_bind]
  split
  case isFalse attached =>
    have has : (e.table? v).isSome = true := by
      rw [← Option.ne_none_iff_isSome]
      simpa using attached
    exact ⟨he, fun _ => has, fun _ before => before⟩
  case isTrue =>
    have fitting := fitting_zeros laws (h.arranged assembled) hv
    rw [← he.same.expectedShape_eq] at fitting
    rcases he.attach h assembled fitting with ⟨supplied, has, stays⟩
    exact ⟨supplied, fun _ => has, stays⟩

theorem ends_settleUtility_supplied (laws : Scalar.HasShares α) {d : Diagram α} (h : Consistent d)
    (assembled : d.phase ≠ .building) (o : GenerateOptions) {e : Diagram α} (he : Supplied d e) :
    Ends (settleUtility o) e fun _ e' => Supplied d e' ∧
      ∀ k, (e.table? k).isSome = true → (e'.table? k).isSome = true := by
  unfold settleUtility
  split
  case isTrue =>
    rw [ends_get_bind]
    refine ends_bind ((ends_forM (S := fun k e => (e.table? k).isSome = true)
      (fun v hv => ends_fillUtility laws h assembled (he.same.value ▸ hv)) e he).mono
      fun r t ht => ?_)
    rcases ht with ⟨supplied, -, stays⟩
    cases r with
    | error => exact ⟨supplied, stays⟩
    | ok => exact ⟨⟨{ supplied.same with }, supplied.strict, supplied.places, supplied.fitting⟩, stays⟩
  case isFalse =>
    exact ⟨⟨{ he.same with }, he.strict, he.places, he.fitting⟩, fun _ before => before⟩

theorem keeps_consistent_generate (laws : Scalar.HasShares α) (o : GenerateOptions) :
    Keeps (Consistent (α := α)) (generate o) := by
  intro d h
  unfold generate
  rw [ends_get_bind]
  split
  case h_1 => exact h
  case h_2 => exact h
  case h_3 assembled =>
    split
    case h_1 => exact h
    case h_2 =>
      have settled : d.phase ≠ .building := by
        rw [assembled]
        decide
      refine ends_bind ((ends_forM (S := fun k e => (e.table? k).isSome = true)
        (fun j hj => ends_fillProbability laws h settled o hj) d h.supplied).mono
        fun r e filled => ?_)
      rcases filled with ⟨he, complete, -⟩
      cases r with
      | error => exact he.consistent h assembled
      | ok =>
        refine ends_bind ((ends_settleUtility_supplied laws h settled o he).mono
          fun r e' utility => ?_)
        rcases utility with ⟨he', stays⟩
        cases r with
        | error => exact he'.consistent h assembled
        | ok =>
          refine ends_bind ((ends_settleSign o e').mono fun r e'' signed => ?_)
          rcases signed with ⟨shift, sign, rfl, -⟩
          have consistent := he'.consistent h assembled
          have closed := consistent.arranged (by rw [he'.same.phase]; exact settled)
          cases r with
          | error =>
            exact ⟨consistent.names, consistent.faultless, consistent.bare, fun _ => { closed with },
              consistent.places, fun i t ht => { consistent.fitting i t ht with },
              consistent.complete⟩
          | ok =>
            rw [ends_modify]
            refine ⟨consistent.names, consistent.faultless, fun hb => (by cases hb),
              fun _ => { closed with }, fun _ => ?_,
              fun i t ht => { consistent.fitting i t ht with }, fun _ j hj => ?_⟩
            · exact consistent.places (by rw [he'.same.phase]; exact settled)
            · exact stays j (complete rfl j (he'.same.chance ▸ hj))

theorem keeps_consistent_setPathUtility (u : PathUtility α) :
    Keeps Consistent (setPathUtility u) := by
  intro d h
  unfold setPathUtility
  rw [ends_get_bind]
  split
  case isTrue => exact h
  case isFalse =>
    exact ⟨h.names, h.faultless, h.bare, fun hb => { h.arranged hb with }, h.places,
      fun i t ht => { h.fitting i t ht with }, h.complete⟩

/-- Every attained diagram is consistent. -/
theorem Attained.consistent (laws : Scalar.HasShares α) {d : Diagram α} (h : Attained d) :
    Consistent d := by
  induction h with
  | empty strict => exact consistent_empty strict
  | addNode _ n ih => exact keeps_consistent_addNode n _ ih
  | generateArcs _ ih => exact keeps_consistent_generateArcs _ ih
  | setProbabilities _ name made ih => exact keeps_consistent_setProbabilities name made _ ih
  | setUtility _ name made ih => exact keeps_consistent_setUtility name made _ ih
  | generate _ o ih => exact keeps_consistent_generate laws o _ ih
  | setPathUtility _ u ih => exact keeps_consistent_setPathUtility u _ ih

/-! ## Nodes and their order -/

/-- The property is one of the nodes and their order.  Tables and what generation settles do not
matter. -/
def Structural (P : Diagram α → Prop) : Prop :=
  ∀ (d : Diagram α) phase tables pathUtility shift sign,
    P d → P { d with phase, tables, pathUtility, shift, sign }

namespace Structural

variable {P : Diagram α → Prop} (h : Structural P)

include h

theorem keeps_setProbabilities (name : String) (source : TableSource α) :
    Keeps P (setProbabilities name source) := by
  intro d hd
  unfold setProbabilities
  rw [ends_get_bind, ends_liftM_bind]
  refine ⟨fun i _ => ?_, fun _ _ => hd⟩
  rw [ends_liftM_bind]
  refine ⟨fun t _ => ?_, fun _ _ => hd⟩
  split
  case h_1 => exact hd
  case h_2 =>
    split
    case h_1 => exact hd
    case h_2 => exact h d _ _ _ _ _ hd

theorem keeps_setUtility (name : String) (source : TableSource α) :
    Keeps P (setUtility name source) := by
  intro d hd
  unfold setUtility
  rw [ends_get_bind, ends_liftM_bind]
  refine ⟨fun i _ => ?_, fun _ _ => hd⟩
  rw [ends_liftM_bind]
  refine ⟨fun t _ => ?_, fun _ _ => hd⟩
  split
  case isTrue => exact h d _ _ _ _ _ hd
  case isFalse => exact hd

theorem keeps_fillProbability (o : GenerateOptions) (j : ℕ) : Keeps P (fillProbability o j) := by
  intro d hd
  unfold fillProbability
  rw [ends_get_bind]
  split
  case isTrue =>
    cases o.defaultProbability with
    | true => exact h d _ _ _ _ _ hd
    | false => exact hd
  case isFalse => exact hd

theorem keeps_fillUtility (v : ℕ) : Keeps P (fillUtility v) := by
  intro d hd
  unfold fillUtility
  rw [ends_get_bind]
  split
  case isTrue => exact h d _ _ _ _ _ hd
  case isFalse => exact hd

theorem keeps_settleUtility (o : GenerateOptions) : Keeps P (settleUtility o) := by
  unfold settleUtility
  split
  case isTrue =>
    intro d hd
    rw [ends_get_bind]
    refine keeps_bind (keeps_forM fun v _ => h.keeps_fillUtility v) (fun _ => ?_) d hd
    exact fun e he => h e _ _ _ _ _ he
  case isFalse => exact fun d hd => h d _ _ _ _ _ hd

theorem keeps_settleSign (o : GenerateOptions) : Keeps P (settleSign o) := by
  intro d hd
  refine (ends_settleSign o d).mono fun _ e he => ?_
  rcases he with ⟨shift, sign, rfl, -⟩
  exact h d _ _ _ _ _ hd

theorem keeps_generate (o : GenerateOptions) : Keeps P (generate o) := by
  intro d hd
  unfold generate
  rw [ends_get_bind]
  split
  case h_1 => exact hd
  case h_2 => exact hd
  case h_3 =>
    split
    case h_1 => exact hd
    case h_2 =>
      refine keeps_bind (keeps_forM fun j _ => h.keeps_fillProbability o j) (fun _ =>
        keeps_bind (h.keeps_settleUtility o) fun _ => keeps_bind (h.keeps_settleSign o) fun _ => ?_)
        d hd
      exact fun e he => h e _ _ _ _ _ he

theorem keeps_setPathUtility (u : PathUtility α) : Keeps P (setPathUtility u) := by
  intro d hd
  unfold setPathUtility
  rw [ends_get_bind]
  split
  case isTrue => exact hd
  case isFalse => exact h d _ _ _ _ _ hd

/-- What adding nodes and ordering them keep holds of every attained diagram. -/
theorem attained (empty : ∀ strict, P (.empty strict)) (node : ∀ n, Keeps P (addNode n))
    (arcs : Keeps P generateArcs) {d : Diagram α} (hd : Attained d) : P d := by
  induction hd with
  | empty strict => exact empty strict
  | addNode _ n ih => exact node n _ ih
  | generateArcs _ ih => exact arcs _ ih
  | setProbabilities _ name _ ih => exact h.keeps_setProbabilities name _ _ ih
  | setUtility _ name _ ih => exact h.keeps_setUtility name _ _ ih
  | generate _ o ih => exact h.keeps_generate o _ ih
  | setPathUtility _ u ih => exact h.keeps_setPathUtility u _ ih

end Structural

/-- No decision node is listed twice. -/
theorem Attained.nodup_decision {d : Diagram α} (h : d.Attained) : d.decision.Nodup := by
  refine Structural.attained (P := fun d => d.decision.Nodup) (fun _ _ _ _ _ _ hd => hd)
    (fun _ => List.nodup_nil) (fun n d hd => ?_) (fun d hd => ?_) h
  · refine (ends_addNode n d).mono fun _ e he => ?_
    rcases he with rfl | ⟨-, -, -, rfl⟩ <;> exact hd
  · refine (ends_generateArcs d).mono fun _ e he => ?_
    rcases he with rfl | ⟨-, parents, placed, -, -, rfl⟩
    · exact hd
    · dsimp only [ordered]
      exact nodup_positionsWhere _ _

end Diagram

/-! ## Diagrams from files -/

namespace DiagramFile

open Diagram

variable {α : Type}

/-- The tables of files are made from their entries. -/
theorem made_of_tensor {d : Diagram α} {name : String} {n : Nested α} {t : Tensor α}
    (run : tensor d name n = .ok t) : t.Made := by
  unfold tensor at run
  rcases except_bind_eq_ok.mp run with ⟨i, -, run⟩
  split at run
  case h_1 => exact .ofData run
  case h_2 => cases run

variable [Scalar α]

theorem keeps_attained_attachTables (f : DiagramFile α) : Keeps Attained f.attachTables := by
  refine keeps_bind (keeps_forM fun b _ => ?_) fun _ => keeps_forM fun b _ => ?_
  · intro d h
    rw [ends_get_bind, ends_liftM_bind]
    refine ⟨fun t ht => ?_, fun _ _ => h⟩
    have made : (TableSource.plain t).Made := made_of_tensor ht
    exact h.setProbabilities b.1 made
  · intro d h
    rw [ends_get_bind, ends_liftM_bind]
    refine ⟨fun t ht => ?_, fun _ _ => h⟩
    have made : (TableSource.plain t).Made := made_of_tensor ht
    exact h.setUtility b.1 made

/-- The diagram of a file is attained before it is generated. -/
theorem attained_of_assemble {f : DiagramFile α} {d : Diagram α} (h : f.assemble = .ok d) :
    Attained d := by
  rcases except_bind_eq_ok.mp h with ⟨arranged, h, attached⟩
  have first : Attained arranged := by
    refine holds_after ?_ (.empty f.generate.strictProbabilities) h
    exact keeps_bind (keeps_forM fun n _ => fun _ h => h.addNode n) fun _ => fun _ h =>
      h.generateArcs
  exact holds_after (keeps_attained_attachTables f) first attached

/-- The diagram of a file is attained. -/
theorem attained_of_build {f : DiagramFile α} {d : Diagram α} (h : f.build = .ok d) :
    Attained d := by
  rcases except_bind_eq_ok.mp h with ⟨assembled, h, generated⟩
  exact holds_after (fun _ h => h.generate f.generate.options) (attained_of_assemble h) generated

end DiagramFile

end Influence
