import Influence.Proofs.Sound

/-!
# Which nodes can be ordered

The nodes of a file can be assembled if each is faultless, their names differ, information sets
name nodes with states, and no node comes to be behind itself: parents have a lower rank than their
children, for some ranks (`Orderable`).  Nothing of this looks at the order of the nodes, and
`arrange` finds an order for exactly these nodes (`exists_arrange_iff`).

The diagram then has the nodes in an order of its own, and its information sets, which are numbers,
stand for the names that the nodes list (`Orders`).
-/

namespace Influence

/-! ## Nodes that can be ordered -/

/-- What nodes have to satisfy to be assembled. -/
structure Orderable (ns : List Node) : Prop where
  faultless : ∀ n ∈ ns, n.fault? = none
  names : (ns.map (·.name)).Nodup
  known : ∀ n ∈ ns, ∀ q ∈ n.informationSet, ∃ m ∈ ns, m.name = q ∧ m.isValue = false
  acyclic : ∃ rank : String → ℕ, ∀ n ∈ ns, n.isValue = false →
    ∀ q ∈ n.informationSet, rank q < rank n.name

theorem Orderable.perm {ns ms : List Node} (h : Orderable ns) (perm : ms.Perm ns) :
    Orderable ms where
  faultless n hn := h.faultless n (perm.mem_iff.mp hn)
  names := (perm.map _).nodup_iff.mpr h.names
  known n hn q hq := by
    rcases h.known n (perm.mem_iff.mp hn) q hq with ⟨m, hm, named⟩
    exact ⟨m, perm.mem_iff.mpr hm, named⟩
  acyclic := by
    rcases h.acyclic with ⟨rank, lower⟩
    exact ⟨rank, fun n hn => lower n (perm.mem_iff.mp hn)⟩

theorem Node.nodup_informationSet {n : Node} (faultless : n.fault? = none) :
    n.informationSet.Nodup := by
  by_contra repeated
  unfold Node.fault? at faultless
  simp only [repeated, not_false_eq_true, if_true] at faultless
  split_ifs at faultless

namespace Diagram

variable {α : Type}

theorem nameOf_eq {d : Diagram α} {i : ℕ} {n : Node} (hn : d.nodes[i]? = some n) :
    d.nameOf i = n.name := by
  rw [nameOf, hn]
  rfl

/-- The diagram has the nodes in some order, and its information sets stand for the names that they
list. -/
structure Orders (d : Diagram α) (ns : List Node) : Prop where
  nodes : d.nodes.Perm ns
  arranged : Arranged d
  parents : ∀ i n, d.nodes[i]? = some n → (d.informationSet i).map d.nameOf = n.informationSet
  places : d.tables.length = d.nodes.length

/-- Nodes that are in order can be ordered. -/
theorem Orders.orderable {d : Diagram α} {ns : List Node} (h : d.Orders ns) : Orderable ns := by
  refine Orderable.perm ⟨h.arranged.faultless, h.arranged.names, ?_, ?_⟩ h.nodes.symm
  · intro n hn q hq
    rcases List.mem_iff_getElem?.mp hn with ⟨i, hi⟩
    rw [← h.parents i n hi] at hq
    rcases List.mem_map.mp hq with ⟨p, hp, rfl⟩
    rcases h.arranged.inner p (h.arranged.parents i p hp).2 with ⟨m, hm, inner, -⟩
    exact ⟨m, List.mem_of_getElem? hm, (nameOf_eq hm).symm, inner⟩
  · refine ⟨fun name => (d.position? name).getD 0, fun n hn _ q hq => ?_⟩
    rcases List.mem_iff_getElem?.mp hn with ⟨i, hi⟩
    rw [← h.parents i n hi] at hq
    rcases List.mem_map.mp hq with ⟨p, hp, rfl⟩
    rcases h.arranged.parents i p hp with ⟨before, inside⟩
    rcases h.arranged.inner p inside with ⟨m, hm, -⟩
    have place {k : ℕ} {m : Node} (hm : d.nodes[k]? = some m) : d.position? m.name = some k :=
      (position?_eq_some_iff h.arranged.names).mpr ⟨m, hm, rfl⟩
    dsimp only
    rw [nameOf_eq hm, place hm, place hi]
    exact before

/-! ## Adding the nodes -/

theorem succeeds_addNode_iff {d e : Diagram α} {n : Node} (building : d.phase = .building) :
    Succeeds (addNode n) d () e ↔ n.fault? = none ∧ n.name ∉ d.nodes.map (·.name) ∧
      e = { d with nodes := d.nodes ++ [n] } := by
  have taken : (d.position? n.name).isSome = true ↔ n.name ∈ d.nodes.map (·.name) := by
    rw [position?, List.findIdx?_isSome, List.any_eq_true, List.mem_map]
    simp only [beq_iff_eq]
  unfold addNode
  rw [succeeds_get_bind, if_neg (not_not.mpr building)]
  cases n.fault? with
  | some fault => exact iff_of_false not_succeeds_throw fun h => by cases h.1
  | none =>
    dsimp only
    by_cases known : n.name ∈ d.nodes.map (·.name)
    · rw [if_pos (taken.mpr known)]
      exact iff_of_false not_succeeds_throw fun h => h.2.1 known
    · rw [if_neg (fun some => known (taken.mp some))]
      exact succeeds_set.trans ⟨fun h => ⟨rfl, known, h⟩, fun h => h.2.2⟩

theorem succeeds_forM_addNode_iff {d e : Diagram α} {ns : List Node}
    (building : d.phase = .building) (names : (d.nodes.map (·.name)).Nodup) :
    Succeeds (ns.forM addNode) d () e ↔ (∀ n ∈ ns, n.fault? = none) ∧
      ((d.nodes ++ ns).map (·.name)).Nodup ∧ e = { d with nodes := d.nodes ++ ns } := by
  induction ns generalizing d with
  | nil =>
    rw [succeeds_forM_nil, List.append_nil]
    exact ⟨fun h => ⟨fun n hn => (by cases hn), names, h⟩, fun h => h.2.2⟩
  | cons n ns ih =>
    have appended : d.nodes ++ n :: ns = d.nodes ++ [n] ++ ns := by
      rw [List.append_assoc, List.singleton_append]
    rw [succeeds_forM_cons, List.forall_mem_cons, appended]
    constructor
    · rintro ⟨t, first, rest⟩
      obtain ⟨faultless, fresh, rfl⟩ := (succeeds_addNode_iff building).mp first
      have distinct : ((d.nodes ++ [n]).map (·.name)).Nodup := by
        rw [List.map_append, List.nodup_append_comm]
        exact List.nodup_cons.mpr ⟨fresh, names⟩
      rcases (ih (d := { d with nodes := d.nodes ++ [n] }) building distinct).mp rest
        with ⟨others, all, rfl⟩
      exact ⟨⟨faultless, others⟩, all, rfl⟩
    · rintro ⟨⟨faultless, others⟩, all, rfl⟩
      have distinct : ((d.nodes ++ [n]).map (·.name)).Nodup := by
        rw [List.map_append] at all
        exact (List.nodup_append.mp all).1
      have fresh : n.name ∉ d.nodes.map (·.name) := by
        rw [List.map_append, List.nodup_append_comm] at distinct
        exact (List.nodup_cons.mp distinct).1
      exact ⟨_, (succeeds_addNode_iff building).mpr ⟨faultless, fresh, rfl⟩,
        (ih (d := { d with nodes := d.nodes ++ [n] }) building distinct).mpr ⟨others, all, rfl⟩⟩

/-! ## Parents by number -/

section Parents

variable {d : Diagram α} (names : (d.nodes.map (·.name)).Nodup)

include names

theorem parentPosition_eq_ok_iff {child : Node} {parent : String} {p : ℕ} :
    (parentPosition d.nodes child parent : Except (DiagramError α) ℕ) = .ok p ↔
      ∃ m, d.nodes[p]? = some m ∧ m.name = parent ∧ m.isValue = false := by
  have place {i : ℕ} : d.nodes.findIdx? (·.name == parent) = some i ↔
      ∃ n, d.nodes[i]? = some n ∧ n.name = parent := position?_eq_some_iff names
  unfold parentPosition
  split
  case h_1 unknown =>
    refine iff_of_false (fun h => by cases h) ?_
    rintro ⟨m, hm, name, -⟩
    rw [unknown] at place
    cases place.mpr ⟨m, hm, name⟩
  case h_2 q found =>
    rcases place.mp found with ⟨m, hm, name⟩
    rw [hm]
    dsimp only
    have same {p : ℕ} {m' : Node} (hm' : d.nodes[p]? = some m') (name' : m'.name = parent) :
        q = p := Option.some.inj (found.symm.trans (place.mpr ⟨m', hm', name'⟩))
    split
    case isTrue value =>
      refine iff_of_false (fun h => by cases h) ?_
      rintro ⟨m', hm', name', inner⟩
      rw [← same hm' name', hm, Option.some.injEq] at hm'
      rw [hm', inner] at value
      cases value
    case isFalse inner =>
      rw [Except.ok.injEq]
      constructor
      · rintro rfl
        exact ⟨m, hm, name, by simpa using inner⟩
      · rintro ⟨m', hm', name', -⟩
        exact same hm' name'

/-- The positions of a node's parents stand for the names that it lists. -/
theorem nameOf_parents {parents : List (List ℕ)}
    (known : (parentPositions d.nodes : Except (DiagramError α) (List (List ℕ))) = .ok parents)
    {p : ℕ} {n : Node} (hn : d.nodes[p]? = some n) :
    (parents.getD p []).map d.nameOf = n.informationSet := by
  have rows := except_mapM_eq_ok_iff.mp known
  rcases List.getElem?_eq_some_iff.mp hn with ⟨hp, rfl⟩
  have hp' : p < parents.length := rows.length_eq ▸ hp
  have row := except_mapM_eq_ok_iff.mp (rows.get hp hp')
  rw [List.getD_eq_getElem _ _ hp', ← List.forall₂_eq_eq_eq, List.forall₂_map_left_iff]
  refine row.flip.imp fun q parent found => ?_
  rcases (parentPosition_eq_ok_iff names).mp found with ⟨m, hm, name, -⟩
  rw [nameOf_eq hm, name]

theorem exists_parentPositions (known : ∀ n ∈ d.nodes, ∀ q ∈ n.informationSet,
    ∃ m ∈ d.nodes, m.name = q ∧ m.isValue = false) :
    ∃ parents, (parentPositions d.nodes : Except (DiagramError α) (List (List ℕ))) =
      .ok parents := by
  refine exists_except_mapM fun n hn => exists_except_mapM fun q hq => ?_
  rcases known n hn q hq with ⟨m, hm, name, inner⟩
  rcases List.mem_iff_getElem?.mp hm with ⟨p, hp⟩
  exact ⟨p, (parentPosition_eq_ok_iff names).mpr ⟨m, hp, name, inner⟩⟩

end Parents

/-! ## Placing -/

/-- Where parents rank lower than their children, everything that waits is placed: of what waits,
what ranks lowest is ready. -/
theorem mem_placeAll_of_rank {parents : List (List ℕ)} (rank : ℕ → ℕ) {placed waiting : List ℕ}
    (known : ∀ p ∈ waiting, ∀ q ∈ parents.getD p [], q ∈ placed ∨ q ∈ waiting)
    (lower : ∀ p ∈ waiting, ∀ q ∈ parents.getD p [], rank q < rank p) {p : ℕ}
    (hp : p ∈ placed ∨ p ∈ waiting) : p ∈ placeAll parents placed waiting := by
  fun_induction placeAll parents placed waiting with
  | case1 placed waiting stuck =>
    refine hp.resolve_right fun waits => ?_
    obtain ⟨r, hr, lowest⟩ := Finset.exists_min_image waiting.toFinset rank
      ⟨p, List.mem_toFinset.mpr waits⟩
    have hr := List.mem_toFinset.mp hr
    refine List.find?_eq_none.mp stuck r hr (List.all_eq_true.mpr fun q hq => ?_)
    refine List.contains_iff_mem.mpr ((known r hr q hq).resolve_right fun waits => ?_)
    exact absurd (lowest q (List.mem_toFinset.mpr waits)) (Nat.not_le_of_lt (lower r hr q hq))
  | case2 placed waiting r found shorter ih =>
    have move {q : ℕ} (hq : q ∈ placed ∨ q ∈ waiting) :
        q ∈ placed ++ [r] ∨ q ∈ waiting.erase r := by
      by_cases same : q = r
      · exact .inl (List.mem_append_right _ (List.mem_singleton.mpr same))
      · exact hq.imp (List.mem_append_left _) (List.mem_erase_of_ne same).mpr
    exact ih (fun p hp q hq => move (known p (List.mem_of_mem_erase hp) q hq))
      (fun p hp => lower p (List.mem_of_mem_erase hp)) (move hp)

/-! ## Ordering the nodes -/

theorem nothingLeft_iff {waiting placed : List ℕ} :
    (waiting.filter fun p => !placed.contains p) = [] ↔ ∀ p ∈ waiting, p ∈ placed := by
  simp

theorem succeeds_generateArcs_iff {d e : Diagram α} (building : d.phase = .building) :
    Succeeds generateArcs d () e ↔ ∃ parents,
      (parentPositions d.nodes : Except (DiagramError α) (List (List ℕ))) = .ok parents ∧
      (∀ p ∈ positionsWhere d.nodes (fun n => !n.isValue),
        p ∈ placeAll parents [] (positionsWhere d.nodes fun n => !n.isValue)) ∧
      e = d.ordered parents (placeAll parents [] (positionsWhere d.nodes fun n => !n.isValue) ++
        positionsWhere d.nodes Node.isValue) := by
  unfold generateArcs
  rw [succeeds_get_bind, if_neg (not_not.mpr building), succeeds_liftM_bind]
  refine exists_congr fun parents => and_congr_right fun _ => ?_
  dsimp only
  rw [← nothingLeft_iff, placeReady_eq_placeAll (pairwise_positionsWhere _ _)]
  split
  case isTrue left => exact iff_of_false not_succeeds_throw fun h => left h.1
  case isFalse none => exact succeeds_set.trans ⟨fun h => ⟨not_not.mp none, h⟩, fun h => h.2⟩

/-- The nodes at given positions, by number. -/
theorem getElem?_filterMap_nodes {nodes : List Node} {order : List ℕ}
    (inside : ∀ p ∈ order, p < nodes.length) (i : ℕ) :
    (order.filterMap (nodes[·]?))[i]? = order[i]?.bind (nodes[·]?) := by
  induction order generalizing i with
  | nil => rfl
  | cons p order ih =>
    rcases List.forall_mem_cons.mp inside with ⟨hp, rest⟩
    rw [List.filterMap_cons, List.getElem?_eq_getElem hp]
    dsimp only
    cases i with
    | zero =>
      rw [List.getElem?_cons_zero, List.getElem?_cons_zero, Option.bind_some,
        List.getElem?_eq_getElem hp]
    | succ i => rw [List.getElem?_cons_succ, List.getElem?_cons_succ, ih rest]

theorem orders_ordered {d : Diagram α} (names : (d.nodes.map (·.name)).Nodup)
    (faultless : ∀ n ∈ d.nodes, n.fault? = none) {parents : List (List ℕ)} {placed : List ℕ}
    (known : (parentPositions d.nodes : Except (DiagramError α) (List (List ℕ))) = .ok parents)
    (placing : Placing d.nodes parents placed) :
    (d.ordered parents (placed ++ positionsWhere d.nodes Node.isValue)).Orders d.nodes := by
  set order := placed ++ positionsWhere d.nodes Node.isValue with horder
  have perm : order.Perm (List.range d.nodes.length) := placing.perm_range
  have inside : ∀ p ∈ order, p < d.nodes.length :=
    fun p hp => List.mem_range.mp (perm.mem_iff.mp hp)
  have node (i : ℕ) : (d.ordered parents order).nodes[i]? = order[i]?.bind (d.nodes[·]?) :=
    getElem?_filterMap_nodes inside i
  have all : (List.range d.nodes.length).filterMap (d.nodes[·]?) = d.nodes := by
    refine List.ext_getElem? fun i => ?_
    rw [getElem?_filterMap_nodes fun p hp => List.mem_range.mp hp]
    by_cases hi : i < d.nodes.length
    · rw [List.getElem?_range hi, Option.bind_some]
    · rw [List.getElem?_eq_none (by simpa using hi), List.getElem?_eq_none (Nat.le_of_not_lt hi)]
      rfl
  refine ⟨?_, arranged_ordered names faultless placing, fun i n hn => ?_,
    (places_ordered placing).2⟩
  · exact all ▸ perm.filterMap _
  · rw [node] at hn
    rcases Option.bind_eq_some_iff.mp hn with ⟨p, hp, hn⟩
    have set : (d.ordered parents order).informationSet i =
        (parents.getD p []).map order.idxOf := by
      change (order.map fun p => (parents.getD p []).map order.idxOf).getD i [] = _
      rw [List.getD_eq_getElem?_getD, List.getElem?_map, hp]
      rfl
    rw [set, List.map_map, ← nameOf_parents names known hn]
    refine List.map_congr_left fun q hq => ?_
    have inner := (placing.complete q).mpr (placing.known p q hq)
    have mem : q ∈ order := List.mem_append_left _ inner
    rw [Function.comp_apply, nameOf, nameOf, node, List.getElem?_idxOf mem]
    rfl

/-- Where the nodes are faultless and ordered, nothing is observed twice. -/
theorem Orders.nodup_informationSet {d : Diagram α} {ns : List Node} (h : d.Orders ns)
    (places : d.informationSets.length = d.nodes.length) (i : ℕ) : (d.informationSet i).Nodup := by
  by_cases hi : i < d.nodes.length
  · have listed := h.parents i _ (List.getElem?_eq_getElem hi)
    refine List.Nodup.of_map d.nameOf (listed ▸ Node.nodup_informationSet ?_)
    exact h.arranged.faultless _ (List.getElem_mem hi)
  · rw [informationSet, List.getD_eq_default _ _ (by omega)]
    exact List.nodup_nil

/-- Nothing is observed twice, wherever operations lead. -/
theorem Attained.nodup_informationSet [Scalar α] {d : Diagram α} (h : d.Attained) (i : ℕ) :
    (d.informationSet i).Nodup := by
  have structural : Structural fun d : Diagram α => ((d.nodes.map (·.name)).Nodup ∧
      ∀ n ∈ d.nodes, n.fault? = none) ∧ ∀ i, (d.informationSet i).Nodup :=
    fun _ _ _ _ _ _ hd => hd
  refine (structural.attained (fun _ => ⟨⟨List.nodup_nil, nofun⟩, fun _ => List.nodup_nil⟩)
    (fun n d hd => ?_) (fun d hd => ?_) h).2 i
  · refine (ends_addNode n d).mono fun _ e he => ?_
    rcases he with rfl | ⟨-, faultless, fresh, rfl⟩
    · exact hd
    · refine ⟨⟨?_, List.forall_mem_append.mpr ⟨hd.1.2, List.forall_mem_singleton.mpr faultless⟩⟩,
        hd.2⟩
      rw [List.map_append, List.nodup_append_comm]
      exact List.nodup_cons.mpr ⟨fresh, hd.1.1⟩
  · refine (ends_generateArcs d).mono fun _ e he => ?_
    rcases he with rfl | ⟨-, parents, placed, known, placing, rfl⟩
    · exact hd
    · have orders := orders_ordered hd.1.1 hd.1.2 known placing
      exact ⟨⟨orders.arranged.names, orders.arranged.faultless⟩,
        orders.nodup_informationSet (places_ordered placing).1⟩

/-- What can be ordered is ordered. -/
theorem exists_succeeds_generateArcs {d : Diagram α} (building : d.phase = .building)
    (h : Orderable d.nodes) : ∃ e, Succeeds generateArcs d () e := by
  rcases exists_parentPositions h.names h.known with ⟨parents, known⟩
  rcases h.acyclic with ⟨rank, lower⟩
  refine ⟨_, (succeeds_generateArcs_iff building).mpr ⟨parents, known, fun p hp =>
    mem_placeAll_of_rank (fun p => rank (d.nameOf p)) ?_ ?_ (.inr hp), rfl⟩⟩
  · intro p _ q hq
    exact .inr (mem_positionsWhere_inner.mpr (isInner_of_parentPositions known hq))
  · intro p hp q hq
    rcases mem_positionsWhere_inner.mp hp with ⟨n, hn, inner⟩
    rw [nameOf_eq hn]
    refine lower n (List.mem_of_getElem? hn) inner _ ?_
    rw [← nameOf_parents h.names known hn]
    exact List.mem_map_of_mem hq

/-- An assembled diagram that no table was attached to yet. -/
structure Bare [Scalar α] (d : Diagram α) (strict : Bool) : Prop where
  phase : d.phase = .assembled
  strict : d.strict = strict
  tables : ∀ i, d.table? i = none
  pathUtility : d.pathUtility = none
  shift : d.shift = 0
  sign : d.sign = .unrestricted

end Diagram

namespace DiagramFile

open Diagram

variable {α : Type} [Scalar α] {f : DiagramFile α}

theorem arrange_eq_ok_iff {d : Diagram α} : f.arrange = .ok d ↔
    (∀ n ∈ f.nodes, n.fault? = none) ∧ (f.nodes.map (·.name)).Nodup ∧
      Succeeds generateArcs { Diagram.empty f.generate.strictProbabilities with nodes := f.nodes }
        () d := by
  rw [arrange, after_eq_ok_iff, succeeds_bind]
  have added {e : Diagram α} :
      Succeeds (f.nodes.forM addNode) (.empty f.generate.strictProbabilities) () e ↔ _ :=
    succeeds_forM_addNode_iff rfl List.nodup_nil
  constructor
  · rintro ⟨_, e, first, second⟩
    obtain ⟨faultless, names, rfl⟩ := added.mp first
    exact ⟨faultless, names, second⟩
  · rintro ⟨faultless, names, second⟩
    exact ⟨(), _, added.mpr ⟨faultless, names, rfl⟩, second⟩

theorem orders_of_arrange {d : Diagram α} (h : f.arrange = .ok d) :
    d.Orders f.nodes ∧ d.Bare f.generate.strictProbabilities := by
  rcases arrange_eq_ok_iff.mp h with ⟨faultless, names, run⟩
  obtain ⟨parents, known, complete, rfl⟩ := (succeeds_generateArcs_iff rfl).mp run
  refine ⟨orders_ordered names faultless known (placing_placeAll known complete),
    rfl, rfl, fun i => ?_, rfl, rfl, rfl⟩
  change ((List.replicate f.nodes.length none)[i]?).join = none
  rw [List.getElem?_replicate]
  split <;> rfl

/-- Which nodes can be assembled does not depend on their order. -/
theorem exists_arrange_iff : (∃ d, f.arrange = .ok d) ↔ Orderable f.nodes := by
  constructor
  · rintro ⟨d, h⟩
    exact (orders_of_arrange h).1.orderable
  · intro h
    rcases exists_succeeds_generateArcs rfl
      (d := { (.empty f.generate.strictProbabilities : Diagram α) with nodes := f.nodes }) h
      with ⟨e, run⟩
    exact ⟨e, arrange_eq_ok_iff.mpr ⟨h.faultless, h.names, run⟩⟩

end DiagramFile

end Influence
