import Mathlib.Data.List.GetD
import Mathlib.Data.List.Nodup
import Mathlib.Data.List.Perm.Basic
import Influence.Proofs.Placing
import Influence.Proofs.Success

/-!
# Orders of nodes

`placeAll` lists positions without repetition, each behind its parents
(`parentsFirst_placeAll`), and never one that was not waiting.  `generateArcs` succeeds only
where all positions of chance and decision nodes were placed, and then the new diagram
satisfies `Arranged`: chance and decision nodes come first, their state counts are
`states`, and the parents of every node stand in front of it.
-/

namespace Influence.Diagram

variable {α : Type}

/-! ## Positions -/

theorem mem_positionsWhere {nodes : List Node} {keep : Node → Bool} {i : ℕ} :
    i ∈ positionsWhere nodes keep ↔ ∃ n, nodes[i]? = some n ∧ keep n = true := by
  simp only [positionsWhere, List.mem_filterMap, Prod.exists, List.mem_zipIdx_iff_getElem?]
  constructor
  · rintro ⟨n, j, hn, h⟩
    split at h
    case isTrue hk => exact ⟨n, (Option.some.inj h) ▸ hn, hk⟩
    case isFalse => cases h
  · rintro ⟨n, hn, hk⟩
    exact ⟨n, i, hn, if_pos hk⟩

theorem mem_positionsWhere_of_getElem? {nodes : List Node} {keep : Node → Bool} {i : ℕ} {n : Node}
    (hn : nodes[i]? = some n) : i ∈ positionsWhere nodes keep ↔ keep n = true := by
  rw [mem_positionsWhere, hn]
  exact ⟨fun ⟨_, hm, keeps⟩ => Option.some.inj hm ▸ keeps, fun keeps => ⟨n, rfl, keeps⟩⟩

private theorem pairwise_filterMap_zipIdx (keep : Node → Bool) (nodes : List Node) (k : ℕ) :
    ((nodes.zipIdx k).filterMap fun (n, i) => if keep n then some i else none).Pairwise
      (· < ·) := by
  refine List.Pairwise.filterMap _ (R := fun a b : Node × ℕ => a.2 < b.2) ?_ ?_
  · intro a a' h b hb b' hb'
    simp only [Option.ite_none_right_eq_some, Option.some.injEq] at hb hb'
    rw [← hb.2, ← hb'.2]
    exact h
  · rw [← List.pairwise_map (f := Prod.snd), List.zipIdx_map_snd]
    exact List.pairwise_lt_range'

theorem pairwise_positionsWhere (nodes : List Node) (keep : Node → Bool) :
    (positionsWhere nodes keep).Pairwise (· < ·) := pairwise_filterMap_zipIdx keep nodes 0

theorem nodup_positionsWhere (nodes : List Node) (keep : Node → Bool) :
    (positionsWhere nodes keep).Nodup :=
  (pairwise_positionsWhere nodes keep).imp Nat.ne_of_lt

/-! ## Placing -/

/-- Every listed position has its parents in front of it. -/
def ParentsFirst (parents : List (List ℕ)) (order : List ℕ) : Prop :=
  ∀ p ∈ order, ∀ q ∈ parents.getD p [], q ∈ order ∧ order.idxOf q < order.idxOf p

theorem ParentsFirst.concat {parents : List (List ℕ)} {order : List ℕ}
    (h : ParentsFirst parents order) {p : ℕ} (fresh : p ∉ order)
    (hp : ∀ q ∈ parents.getD p [], q ∈ order) : ParentsFirst parents (order ++ [p]) := by
  intro r hr q hq
  rcases List.mem_append.mp hr with hr | hr
  · obtain ⟨mem, lt⟩ := h r hr q hq
    refine ⟨List.mem_append_left _ mem, ?_⟩
    rwa [List.idxOf_append_of_mem mem, List.idxOf_append_of_mem hr]
  · obtain rfl := List.mem_singleton.mp hr
    have mem := hp q hq
    refine ⟨List.mem_append_left _ mem, ?_⟩
    rw [List.idxOf_append_of_mem mem, List.idxOf_append_of_notMem fresh]
    exact Nat.lt_of_lt_of_le (List.idxOf_lt_length_of_mem mem) (Nat.le_add_right _ _)

theorem mem_placeAll {parents : List (List ℕ)} {placed waiting : List ℕ} {p : ℕ}
    (h : p ∈ placeAll parents placed waiting) : p ∈ placed ∨ p ∈ waiting := by
  fun_induction placeAll parents placed waiting with
  | case1 placed waiting none => exact .inl h
  | case2 placed waiting q found shorter ih =>
    rcases ih h with h | h
    · rcases List.mem_append.mp h with h | h
      · exact .inl h
      · exact .inr (List.mem_singleton.mp h ▸ List.mem_of_find?_eq_some found)
    · exact .inr (List.mem_of_mem_erase h)

/-- Placing repeats no position and puts parents first. -/
theorem parentsFirst_placeAll {parents : List (List ℕ)} {placed waiting : List ℕ}
    (distinct : (placed ++ waiting).Nodup) (first : ParentsFirst parents placed) :
    (placeAll parents placed waiting).Nodup ∧
      ParentsFirst parents (placeAll parents placed waiting) := by
  fun_induction placeAll parents placed waiting with
  | case1 placed waiting none => exact ⟨(List.nodup_append.mp distinct).1, first⟩
  | case2 placed waiting q found shorter ih =>
    have member : q ∈ waiting := List.mem_of_find?_eq_some found
    have fresh : q ∉ placed :=
      fun h => (List.nodup_append.mp distinct).2.2 q h q member rfl
    have ready : ∀ r ∈ parents.getD q [], r ∈ placed := by
      simpa using List.find?_some found
    refine ih ?_ (first.concat fresh ready)
    have moved : (placed ++ [q] ++ waiting.erase q).Perm (placed ++ waiting) := by
      rw [List.append_assoc]
      exact List.Perm.append_left _ (List.perm_cons_erase member).symm
    exact moved.nodup_iff.mpr distinct

/-! ## Parents by position -/

/-- The position of a node with states. -/
def IsInner (nodes : List Node) (p : ℕ) : Prop :=
  ∃ n, nodes[p]? = some n ∧ n.isValue = false

theorem mem_positionsWhere_inner {nodes : List Node} {p : ℕ} :
    p ∈ positionsWhere nodes (fun n => !n.isValue) ↔ IsInner nodes p := by
  rw [mem_positionsWhere]
  simp only [IsInner, Bool.not_eq_true']

theorem isInner_of_parentPosition {nodes : List Node} {child : Node} {parent : String} {p : ℕ}
    (h : (parentPosition nodes child parent : Except (DiagramError α) ℕ) = .ok p) :
    IsInner nodes p := by
  unfold parentPosition at h
  split at h
  case h_1 => cases h
  case h_2 q _ =>
    split at h
    case h_1 n hn =>
      split at h
      case isTrue => cases h
      case isFalse hv =>
        obtain rfl : q = p := by injection h
        exact ⟨n, hn, by simpa using hv⟩
    case h_2 => cases h

/-- Only nodes with states are parents. -/
theorem isInner_of_parentPositions {nodes : List Node} {parents : List (List ℕ)}
    (h : (parentPositions nodes : Except (DiagramError α) (List (List ℕ))) = .ok parents)
    {p q : ℕ} (hq : q ∈ parents.getD p []) : IsInner nodes q := by
  have rows := except_mapM_eq_ok_iff.mp h
  by_cases hp : p < parents.length
  · rw [List.getD_eq_getElem _ _ hp] at hq
    have row := rows.get (i := p) (rows.length_eq ▸ hp) hp
    obtain ⟨i, hi, rfl⟩ := List.mem_iff_getElem.mp hq
    have cell := (except_mapM_eq_ok_iff.mp row).get
      (i := i) ((except_mapM_eq_ok_iff.mp row).length_eq ▸ hi) hi
    exact isInner_of_parentPosition cell
  · rw [List.getD_eq_default _ _ (Nat.le_of_not_lt hp)] at hq
    cases hq

/-! ## Assembled diagrams -/

/-- What assembly makes of the nodes of a diagram. -/
structure Arranged (d : Diagram α) : Prop where
  names : (d.nodes.map (·.name)).Nodup
  faultless : ∀ n ∈ d.nodes, n.fault? = none
  /-- Nodes with states come first, and `states` has their counts. -/
  inner : ∀ i, i < d.states.length →
    ∃ n, d.nodes[i]? = some n ∧ n.isValue = false ∧ d.states[i]? = some n.numStates
  outer : ∀ i n, d.nodes[i]? = some n → d.states.length ≤ i → n.isValue = true
  chance : d.chance = positionsWhere d.nodes (·.kind == .chance)
  decision : d.decision = positionsWhere d.nodes (·.kind == .decision)
  value : d.value = positionsWhere d.nodes Node.isValue
  parents : ∀ i, ∀ p ∈ d.informationSet i, p < i ∧ p < d.states.length

namespace Arranged

variable {d : Diagram α} {i : ℕ} {n : Node}

theorem mem_chance (h : Arranged d) (hn : d.nodes[i]? = some n) :
    i ∈ d.chance ↔ n.kind = .chance := by
  rw [h.chance, mem_positionsWhere_of_getElem? hn, beq_iff_eq]

theorem mem_decision (h : Arranged d) (hn : d.nodes[i]? = some n) :
    i ∈ d.decision ↔ n.kind = .decision := by
  rw [h.decision, mem_positionsWhere_of_getElem? hn, beq_iff_eq]

theorem mem_value (h : Arranged d) (hn : d.nodes[i]? = some n) :
    i ∈ d.value ↔ n.kind = .value := by
  rw [h.value, mem_positionsWhere_of_getElem? hn, Node.isValue, beq_iff_eq]

end Arranged

/-- A node with states has one. -/
theorem Node.numStates_pos {n : Node} (faultless : n.fault? = none) (inner : n.isValue = false) :
    0 < n.numStates := by
  refine List.length_pos_iff.mpr fun empty => ?_
  unfold Node.fault? at faultless
  simp only [inner, empty] at faultless
  split at faultless <;> cases faultless

theorem Arranged.states_pos {d : Diagram α} (h : Arranged d) {k : ℕ} (hk : k ∈ d.states) :
    0 < k := by
  obtain ⟨i, hi, rfl⟩ := List.mem_iff_getElem.mp hk
  obtain ⟨n, hn, inner, count⟩ := h.inner i hi
  rw [List.getElem?_eq_getElem hi, Option.some.injEq] at count
  rw [count]
  exact Node.numStates_pos (h.faultless n (List.mem_of_getElem? hn)) inner

private theorem nodup_names {nodes : List Node} {order : List ℕ}
    (names : (nodes.map (·.name)).Nodup) (distinct : order.Nodup) :
    ((order.filterMap (nodes[·]?)).map (·.name)).Nodup := by
  rw [List.map_filterMap]
  refine List.Nodup.filterMap (fun p q name hp hq => ?_) distinct
  rw [Option.mem_def, ← List.getElem?_map] at hp hq
  have hlt : p < (nodes.map (·.name)).length := (List.getElem?_eq_some_iff.mp hp).1
  exact (List.getElem?_inj hlt names).mp (hp.trans hq.symm)

section Ordered

/-- A complete order of the nodes with states. -/
structure Placing (nodes : List Node) (parents : List (List ℕ)) (placed : List ℕ) : Prop where
  distinct : placed.Nodup
  first : ParentsFirst parents placed
  complete : ∀ p, p ∈ placed ↔ IsInner nodes p
  known : ∀ p, ∀ q ∈ parents.getD p [], IsInner nodes q

namespace Placing

variable {nodes : List Node} {parents : List (List ℕ)} {placed : List ℕ}

/-- The nodes at given positions. -/
private def nodesAt (nodes : List Node) (order : List ℕ) : List Node := order.filterMap (nodes[·]?)

private theorem nodup_order (h : Placing nodes parents placed) :
    (placed ++ positionsWhere nodes Node.isValue).Nodup := by
  refine List.nodup_append.mpr ⟨h.distinct, nodup_positionsWhere _ _, ?_⟩
  rintro p hp q hq rfl
  obtain ⟨n, hn, hin⟩ := (h.complete p).mp hp
  obtain ⟨m, hm, hout⟩ := mem_positionsWhere.mp hq
  rw [hn, Option.some.injEq] at hm
  rw [← hm, hin] at hout
  cases hout

/-- Every position is listed once. -/
theorem perm_range (h : Placing nodes parents placed) :
    (placed ++ positionsWhere nodes Node.isValue).Perm (List.range nodes.length) := by
  rw [List.perm_ext_iff_of_nodup h.nodup_order List.nodup_range]
  intro p
  rw [List.mem_append, h.complete, mem_positionsWhere, List.mem_range]
  constructor
  · rintro (⟨n, hn, _⟩ | ⟨n, hn, _⟩) <;> exact (List.getElem?_eq_some_iff.mp hn).1
  · intro hp
    cases kind : nodes[p].isValue with
    | false => exact .inl ⟨nodes[p], List.getElem?_eq_getElem hp, kind⟩
    | true => exact .inr ⟨nodes[p], List.getElem?_eq_getElem hp, kind⟩

private theorem inner_nodesAt (h : Placing nodes parents placed) :
    ∀ n ∈ nodesAt nodes placed, n.isValue = false := by
  intro n hn
  obtain ⟨p, hp, hn⟩ := List.mem_filterMap.mp hn
  obtain ⟨m, hm, hin⟩ := (h.complete p).mp hp
  rw [hm, Option.some.injEq] at hn
  rwa [← hn]

private theorem value_nodesAt (nodes : List Node) :
    ∀ n ∈ nodesAt nodes (positionsWhere nodes Node.isValue), n.isValue = true := by
  intro n hn
  obtain ⟨p, hp, hn⟩ := List.mem_filterMap.mp hn
  obtain ⟨m, hm, hout⟩ := mem_positionsWhere.mp hp
  rw [hm, Option.some.injEq] at hn
  rwa [← hn]

private theorem length_nodesAt (h : Placing nodes parents placed) :
    (nodesAt nodes placed).length = placed.length := by
  rw [nodesAt, List.filterMap_length_eq_length]
  intro p hp
  obtain ⟨n, hn, _⟩ := (h.complete p).mp hp
  rw [hn]
  rfl

/-- The state counts are those of the placed nodes. -/
private theorem states_nodesAt (h : Placing nodes parents placed) :
    ((nodesAt nodes (placed ++ positionsWhere nodes Node.isValue)).filter fun n => !n.isValue).map
      (·.numStates) = (nodesAt nodes placed).map (·.numStates) := by
  rw [nodesAt, List.filterMap_append, List.filter_append,
    List.filter_eq_self.mpr fun n hn => by rw [h.inner_nodesAt n hn]; rfl,
    List.filter_eq_nil_iff.mpr fun n hn => by rw [value_nodesAt nodes n hn]; decide, List.append_nil]
  rfl

/-- In the new order the parents of every node stand in front of it and have states. -/
private theorem parents_lt (h : Placing nodes parents placed) {order : List ℕ}
    (horder : order = placed ++ positionsWhere nodes Node.isValue) {i p : ℕ}
    (hp : p ∈ (order.map fun q => (parents.getD q []).map order.idxOf).getD i []) :
    p < i ∧ p < placed.length := by
  by_cases hi : i < order.length
  swap
  · rw [List.getD_eq_default _ _ (by simpa using Nat.le_of_not_lt hi)] at hp
    cases hp
  rw [List.getD_eq_getElem _ _ (by simpa using hi), List.getElem_map] at hp
  obtain ⟨q, hq, rfl⟩ := List.mem_map.mp hp
  have mem : q ∈ placed := (h.complete q).mpr (h.known _ q hq)
  have index : order.idxOf q = placed.idxOf q := by
    rw [horder, List.idxOf_append_of_mem mem]
  have bound : placed.idxOf q < placed.length := List.idxOf_lt_length_of_mem mem
  rw [index]
  refine ⟨?_, bound⟩
  by_cases hplaced : i < placed.length
  · have here : order[i] = placed[i] := by
      subst horder
      exact List.getElem_append_left hplaced
    rw [here] at hq
    have before := (h.first _ (List.getElem_mem hplaced) q hq).2
    rwa [h.distinct.idxOf_getElem i hplaced] at before
  · omega

end Placing

/-- Ordering the nodes of a diagram by a complete placing arranges it. -/
theorem arranged_ordered {d : Diagram α} {parents : List (List ℕ)} {placed : List ℕ}
    (names : (d.nodes.map (·.name)).Nodup) (faultless : ∀ n ∈ d.nodes, n.fault? = none)
    (h : Placing d.nodes parents placed) :
    Arranged (d.ordered parents (placed ++ positionsWhere d.nodes Node.isValue)) := by
  have states : (d.ordered parents (placed ++ positionsWhere d.nodes Node.isValue)).states =
      (Placing.nodesAt d.nodes placed).map (·.numStates) := h.states_nodesAt
  have nodes : (d.ordered parents (placed ++ positionsWhere d.nodes Node.isValue)).nodes =
      Placing.nodesAt d.nodes placed ++ Placing.nodesAt d.nodes (positionsWhere d.nodes Node.isValue) :=
    List.filterMap_append
  refine ⟨nodup_names names h.nodup_order, ?_, ?_, ?_, rfl, rfl, rfl, ?_⟩
  · intro n hn
    obtain ⟨p, _, hn⟩ := List.mem_filterMap.mp hn
    exact faultless n (List.mem_of_getElem? hn)
  · intro i hi
    rw [states, List.length_map] at hi
    refine ⟨(Placing.nodesAt d.nodes placed)[i], ?_, h.inner_nodesAt _ (List.getElem_mem hi), ?_⟩
    · rw [nodes, List.getElem?_append_left hi, List.getElem?_eq_getElem hi]
    · rw [states, List.getElem?_map, List.getElem?_eq_getElem hi]
      rfl
  · intro i n hn hi
    rw [states, List.length_map] at hi
    rw [nodes, List.getElem?_append_right hi] at hn
    exact Placing.value_nodesAt d.nodes n (List.mem_of_getElem? hn)
  · intro i p hp
    rw [states, List.length_map, h.length_nodesAt]
    exact h.parents_lt rfl hp

end Ordered

/-! ## Steps of assembly -/

/-- Adding a node leaves the diagram alone or appends a faultless node with a new name. -/
theorem ends_addNode (n : Node) (d : Diagram α) :
    Ends (addNode n) d fun _ d' => d' = d ∨
      d.phase = .building ∧ n.fault? = none ∧ n.name ∉ d.nodes.map (·.name) ∧
        d' = { d with nodes := d.nodes ++ [n] } := by
  unfold addNode
  rw [ends_get_bind]
  by_cases building : d.phase = .building
  swap
  · rw [if_pos building]
    exact .inl rfl
  rw [if_neg (not_not.mpr building)]
  cases hf : n.fault? with
  | some fault => exact .inl rfl
  | none =>
    dsimp only
    split
    case isTrue => exact .inl rfl
    case isFalse fresh =>
      refine .inr ⟨building, rfl, fun hn => fresh ?_, rfl⟩
      obtain ⟨m, hm, name⟩ := List.mem_map.mp hn
      exact List.findIdx?_isSome.trans (List.any_eq_true.mpr ⟨m, hm, by simp [name]⟩)

/-- What is placed is a complete order of the nodes with states, if none of them is left. -/
theorem placing_placeAll {nodes : List Node} {parents : List (List ℕ)}
    (known : (parentPositions nodes : Except (DiagramError α) (List (List ℕ))) = .ok parents)
    (complete : ∀ p ∈ positionsWhere nodes (fun n => !n.isValue),
      p ∈ placeAll parents [] (positionsWhere nodes fun n => !n.isValue)) :
    Placing nodes parents (placeAll parents [] (positionsWhere nodes fun n => !n.isValue)) := by
  have apart : ([] ++ positionsWhere nodes fun n => !n.isValue).Nodup := by
    rw [List.nil_append]
    exact nodup_positionsWhere _ _
  have none : ParentsFirst parents [] := fun p hp => by cases hp
  obtain ⟨distinct, first⟩ := parentsFirst_placeAll apart none
  refine ⟨distinct, first, fun p => ?_, fun p q hq => isInner_of_parentPositions known hq⟩
  rw [← mem_positionsWhere_inner]
  exact ⟨fun hp => (mem_placeAll hp).resolve_left List.not_mem_nil, complete p⟩

/-- Assembly leaves the diagram alone or orders its nodes by a complete placing. -/
theorem ends_generateArcs (d : Diagram α) :
    Ends generateArcs d fun _ d' => d' = d ∨
      d.phase = .building ∧ ∃ parents placed,
        (parentPositions d.nodes : Except (DiagramError α) (List (List ℕ))) = .ok parents ∧
        Placing d.nodes parents placed ∧
        d' = d.ordered parents (placed ++ positionsWhere d.nodes Node.isValue) := by
  unfold generateArcs
  rw [ends_get_bind]
  split
  case isTrue => exact .inl rfl
  case isFalse building =>
    rw [ends_liftM_bind]
    refine ⟨fun parents known => ?_, fun _ _ => .inl rfl⟩
    dsimp only
    rw [placeReady_eq_placeAll (pairwise_positionsWhere _ _)]
    split
    case isTrue => exact .inl rfl
    case isFalse nothingLeft =>
      refine .inr ⟨not_not.mp building, parents, _, known,
        placing_placeAll known fun p hp => ?_, rfl⟩
      simpa using List.filter_eq_nil_iff.mp (not_not.mp nothingLeft) p hp

end Influence.Diagram
