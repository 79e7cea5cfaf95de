import Influence.Proofs.Ordering

/-!
# Diagrams by name

Two diagrams that order the same nodes differently have different numbers for them, so a path of one
is not a path of the other.  What does not depend on numbers are names: an assignment gives every
node a state by its name and has a path in either diagram (`pathOf`), and a table belongs to a name
(`tableNamed`).

`Alike` diagrams have the same nodes and, by name, the same tables.  Paths of one assignment then
have the same probability (`Alike.probabilityOf`) and the same utility (`Alike.utilityOf`) in both,
and utilities range between the same extremes (`Alike.utilityRange`).
-/

namespace Influence

open Extended

/-! ## Nodes by name -/

/-- The number of states of a named node. -/
def countOf (ns : List Node) (name : String) : ℕ :=
  ((ns.find? (·.name == name)).map (·.numStates)).getD 0

/-- The shape of a node's table among given nodes. -/
def shapeOf (ns : List Node) (n : Node) : List ℕ :=
  n.informationSet.map (countOf ns) ++ if n.isValue then [] else [n.numStates]

/-- Every node with states is given one of them. -/
def Assigns (ns : List Node) (a : String → ℕ) : Prop :=
  ∀ n ∈ ns, n.isValue = false → a n.name < n.numStates

theorem countOf_eq {ns : List Node} (names : (ns.map (·.name)).Nodup) {n : Node} (hn : n ∈ ns) :
    countOf ns n.name = n.numStates := by
  rw [countOf]
  cases found : ns.find? (·.name == n.name) with
  | none => exact absurd (beq_self_eq_true n.name) (List.find?_eq_none.mp found n hn)
  | some m =>
    have named : m.name = n.name := by simpa using List.find?_some found
    rw [List.inj_on_of_nodup_map names (List.mem_of_find?_eq_some found) hn named]
    rfl

namespace Diagram

variable {α : Type} {d e : Diagram α} {ns : List Node} {i : ℕ} {n : Node} {a : String → ℕ}

/-- What is read off the positions of some nodes is read off these nodes. -/
theorem filterMap_positionsWhere {β : Type} {nodes : List Node} {keep : Node → Bool}
    {f : ℕ → Option β} {g : Node → Option β}
    (h : ∀ i n, nodes[i]? = some n → keep n = true → f i = g n) :
    (positionsWhere nodes keep).filterMap f = (nodes.filter keep).filterMap g := by
  have listed : nodes = nodes.zipIdx.map Prod.fst := (List.zipIdx_map_fst 0 nodes).symm
  rw [positionsWhere, List.filterMap_filterMap, ← List.filterMap_eq_filter,
    List.filterMap_filterMap, listed, List.filterMap_map, ← listed]
  refine List.filterMap_congr fun e he => ?_
  have node : nodes[e.2]? = some e.1 := List.mem_zipIdx_iff_getElem?.mp he
  dsimp only [Function.comp_apply]
  rw [Option.guard]
  split
  case isTrue kept => exact h e.2 e.1 node kept
  case isFalse => rfl

theorem mapM_positionsWhere {ε β : Type} {nodes : List Node} {keep : Node → Bool}
    {f : ℕ → Except ε β} {g : Node → Except ε β}
    (h : ∀ i n, nodes[i]? = some n → keep n = true → f i = g n) :
    (positionsWhere nodes keep).mapM f = (nodes.filter keep).mapM g := by
  have same : (positionsWhere nodes keep).map f = (nodes.filter keep).map g := by
    rw [← List.filterMap_eq_map, ← List.filterMap_eq_map]
    exact filterMap_positionsWhere fun i n hn kept => congrArg some (h i n hn kept)
  rw [← Function.id_comp f, ← List.mapM_map, same, List.mapM_map, Function.id_comp]

/-! ## Paths and tables by name -/

/-- The path on which every node has the state that it is given. -/
def pathOf (d : Diagram α) (a : String → ℕ) : Path :=
  (List.range d.states.length).map fun i => a (d.nameOf i)

/-- The table of a named node. -/
def tableNamed (d : Diagram α) (name : String) : Option (Tensor α) :=
  (d.position? name).bind d.table?

/-- The probability of a chance node where every node has the state that it is given. -/
def factorOf [Scalar α] (tables : String → Option (Tensor α)) (a : String → ℕ) (n : Node) :
    Except (DiagramError α) α :=
  match tables n.name with
  | some t => t.entry (n.informationSet.map a ++ [a n.name])
  | none => pure 0

/-- The utility of a value node, if it has a table, where every node has the state that it is
given. -/
def termOf? (tables : String → Option (Tensor α)) (a : String → ℕ) (n : Node) :
    Option (Except (DiagramError α) α) :=
  (tables n.name).map fun t => t.entry (n.informationSet.map a)

theorem length_pathOf : (d.pathOf a).length = d.states.length := by
  rw [pathOf, List.length_map, List.length_range]

theorem getD_pathOf (hi : i < d.states.length) : (d.pathOf a).getD i 0 = a (d.nameOf i) := by
  rw [pathOf, List.getD_eq_getElem?_getD, List.getElem?_map, List.getElem?_range hi]
  rfl

namespace Orders

variable (h : d.Orders ns)

include h

theorem names : (ns.map (·.name)).Nodup := (h.nodes.map _).nodup_iff.mp h.arranged.names

theorem mem_of_getElem? (hn : d.nodes[i]? = some n) : n ∈ ns :=
  h.nodes.mem_iff.mp (List.mem_of_getElem? hn)

theorem exists_place (hn : n ∈ ns) : ∃ i : ℕ, d.nodes[i]? = some n :=
  List.mem_iff_getElem?.mp (h.nodes.mem_iff.mpr hn)

theorem position?_eq (hn : d.nodes[i]? = some n) : d.position? n.name = some i :=
  (position?_eq_some_iff h.arranged.names).mpr ⟨n, hn, rfl⟩

theorem tableNamed_eq (hn : d.nodes[i]? = some n) : d.tableNamed n.name = d.table? i := by
  rw [tableNamed, h.position?_eq hn]
  rfl

theorem lt_states_iff (hn : d.nodes[i]? = some n) : i < d.states.length ↔ n.isValue = false := by
  constructor
  · intro hi
    rcases h.arranged.inner i hi with ⟨m, hm, inner, -⟩
    rw [hn, Option.some.injEq] at hm
    rw [hm, inner]
  · intro inner
    refine Nat.lt_of_not_le fun outside => ?_
    rw [h.arranged.outer i n hn outside] at inner
    cases inner

theorem states_getD (hi : i < d.states.length) : d.states.getD i 0 = countOf ns (d.nameOf i) := by
  rcases h.arranged.inner i hi with ⟨n, hn, -, count⟩
  rw [List.getD_eq_getElem?_getD, count, nameOf_eq hn, countOf_eq h.names (h.mem_of_getElem? hn)]
  rfl

theorem expectedShape_eq (hn : d.nodes[i]? = some n) : d.expectedShape i = shapeOf ns n := by
  have parents : d.informationShape i = n.informationSet.map (countOf ns) := by
    rw [← h.parents i n hn, List.map_map, informationShape]
    exact List.map_congr_left fun p hp => h.states_getD (h.arranged.parents i p hp).2
  rw [expectedShape, parents, hn, shapeOf]

theorem informationState_pathOf (hn : d.nodes[i]? = some n) :
    d.informationState i (d.pathOf a) = n.informationSet.map a := by
  rw [← h.parents i n hn, List.map_map, informationState]
  exact List.map_congr_left fun p hp => getD_pathOf (h.arranged.parents i p hp).2

theorem inRange_pathOf : inRange d.states (d.pathOf a) = true ↔ Assigns ns a := by
  rw [inRange_iff_getD, length_pathOf, and_iff_right rfl]
  constructor
  · intro below n hn inner
    rcases h.exists_place hn with ⟨i, hi⟩
    have inside := (h.lt_states_iff hi).mpr inner
    have state := below i inside
    rwa [getD_pathOf inside, h.states_getD inside, nameOf_eq hi, countOf_eq h.names hn] at state
  · intro assigns i inside
    rcases h.arranged.inner i inside with ⟨n, hn, inner, -⟩
    have mem := h.mem_of_getElem? hn
    rw [getD_pathOf inside, h.states_getD inside, nameOf_eq hn, countOf_eq h.names mem]
    exact assigns n mem inner

/-- Every path is that of an assignment. -/
theorem exists_pathOf {p : Path} (hp : p.length = d.states.length) : ∃ a, d.pathOf a = p := by
  refine ⟨fun name => p.getD ((d.position? name).getD 0) 0, ?_⟩
  refine List.ext_getElem (by rw [length_pathOf, hp]) fun i hi hi' => ?_
  rw [length_pathOf] at hi
  rcases h.arranged.inner i hi with ⟨n, hn, -⟩
  rw [← List.getD_eq_getElem _ 0, getD_pathOf hi, nameOf_eq hn, h.position?_eq hn,
    Option.getD_some, List.getD_eq_getElem _ _ hi']

section Evaluation

variable [Scalar α]

/-- The probability of a path of an assignment, by name. -/
theorem probabilityOf_pathOf : d.probabilityOf (d.pathOf a) = (do
    let factors ← (d.nodes.filter (·.kind == .chance)).mapM (factorOf d.tableNamed a)
    pure (Scalar.product factors)) := by
  unfold probabilityOf
  rw [h.arranged.chance]
  refine congrArg (· >>= fun factors => pure (Scalar.product factors))
    (mapM_positionsWhere fun j n hn chance => ?_)
  have inside : j < d.states.length := by
    rw [h.lt_states_iff hn, Node.isValue, beq_iff_eq.mp chance]
    rfl
  rw [factorOf, h.tableNamed_eq hn]
  cases d.table? j with
  | none => rfl
  | some t =>
    dsimp only
    rw [h.informationState_pathOf hn, getD_pathOf inside, nameOf_eq hn]

/-- The utility of a path of an assignment, by name. -/
theorem utilityOf_pathOf (additive : d.pathUtility = some .additive) :
    d.utilityOf (d.pathOf a) = (do
      let terms ← ((d.nodes.filter Node.isValue).filterMap (termOf? d.tableNamed a)).mapM id
      pure (Scalar.sum terms)) := by
  have terms : ((d.value.filterMap fun v => (d.table? v).map (v, ·)).map fun e : ℕ × Tensor α =>
      (e.2.entry (d.informationState e.1 (d.pathOf a)) : Except (DiagramError α) α)) =
        (d.nodes.filter Node.isValue).filterMap (termOf? d.tableNamed a) := by
    rw [List.map_filterMap, h.arranged.value]
    refine filterMap_positionsWhere fun v n hn _ => ?_
    rw [termOf?, h.tableNamed_eq hn, Option.map_map, ← h.informationState_pathOf hn]
    rfl
  unfold utilityOf
  rw [additive, ← terms, List.mapM_map]
  rfl

end Evaluation

end Orders

/-! ## Diagrams that differ by numbers -/

/-- The diagrams have these nodes, in orders of their own, and by name the same tables. -/
structure Alike (ns : List Node) (d e : Diagram α) : Prop where
  left : d.Orders ns
  right : e.Orders ns
  phase : e.phase = d.phase
  strict : e.strict = d.strict
  tables : e.tableNamed = d.tableNamed
  pathUtility : e.pathUtility = d.pathUtility
  shift : e.shift = d.shift
  sign : e.sign = d.sign

namespace Alike

theorem symm (h : Alike ns d e) : Alike ns e d :=
  ⟨h.right, h.left, h.phase.symm, h.strict.symm, h.tables.symm, h.pathUtility.symm, h.shift.symm,
    h.sign.symm⟩

theorem perm (h : Alike ns d e) : d.nodes.Perm e.nodes := h.left.nodes.trans h.right.nodes.symm

theorem table?_eq (h : Alike ns d e) {j : ℕ} (hn : d.nodes[i]? = some n)
    (hm : e.nodes[j]? = some n) : e.table? j = d.table? i := by
  rw [← h.left.tableNamed_eq hn, ← h.right.tableNamed_eq hm, h.tables]

end Alike

section Evaluation

variable {d e : Diagram Exact} (h : Alike ns d e)

include h

/-- Alike diagrams have the same entries in their tables. -/
theorem Alike.stored (stored : Stored d) : Stored e := by
  constructor
  · intro j hj t ht
    rw [h.right.arranged.chance, mem_positionsWhere] at hj
    rcases hj with ⟨n, hn, kind⟩
    rcases h.left.exists_place (h.right.mem_of_getElem? hn) with ⟨i, hi⟩
    refine stored.probability i ?_ t ((h.table?_eq hi hn).symm.trans ht)
    exact (h.left.arranged.mem_chance hi).mpr (beq_iff_eq.mp kind)
  · intro v hv t ht
    rw [h.right.arranged.value, mem_positionsWhere] at hv
    rcases hv with ⟨n, hn, kind⟩
    rcases h.left.exists_place (h.right.mem_of_getElem? hn) with ⟨i, hi⟩
    refine stored.utility i ?_ t ((h.table?_eq hi hn).symm.trans ht)
    exact (h.left.arranged.mem_value hi).mpr (beq_iff_eq.mp kind)

section Values

variable (stored : Stored d)

include stored

/-- Alike diagrams give the paths of an assignment the same probability. -/
theorem Alike.probabilityOf {x : Exact} (hx : d.probabilityOf (d.pathOf a) = .ok x) :
    e.probabilityOf (e.pathOf a) = .ok x := by
  rw [h.left.probabilityOf_pathOf] at hx
  rcases except_bind_eq_ok.mp hx with ⟨factors, run, product⟩
  rcases except_mapM_perm (h.perm.filter _) run with ⟨factors', run', perm⟩
  have finite : ∀ x ∈ factors, Scalar.isFinite x = true := by
    intro x hx
    rcases exists_of_mem_except_mapM run hx with ⟨n, hn, factor⟩
    rcases List.mem_filter.mp hn with ⟨hn, kind⟩
    rcases List.mem_iff_getElem?.mp hn with ⟨j, hj⟩
    rw [factorOf, h.left.tableNamed_eq hj] at factor
    split at factor
    case h_1 t ht =>
      have chance := (h.left.arranged.mem_chance hj).mpr (beq_iff_eq.mp kind)
      rcases stored.probability j chance t ht x (mem_data_of_entry factor) with ⟨r, rfl, -⟩
      exact isFinite_finite r
    case h_2 =>
      rw [← except_pure_eq_ok.mp factor]
      exact isFinite_finite 0
  rw [h.right.probabilityOf_pathOf, h.tables]
  refine except_bind_eq_ok.mpr ⟨factors', run', ?_⟩
  rw [← product, product_perm perm finite]

variable (additive : d.pathUtility = some .additive)

include additive

/-- Alike diagrams give the paths of an assignment the same utility. -/
theorem Alike.utilityOf {u : Exact} (hu : d.utilityOf (d.pathOf a) = .ok u) :
    e.utilityOf (e.pathOf a) = .ok u := by
  rw [h.left.utilityOf_pathOf additive] at hu
  rcases except_bind_eq_ok.mp hu with ⟨terms, run, sum⟩
  rcases except_mapM_perm ((h.perm.filter _).filterMap _) run with ⟨terms', run', perm⟩
  have finite : ∀ x ∈ terms, Scalar.isFinite x = true := by
    intro x hx
    rcases exists_of_mem_except_mapM run hx with ⟨_, hterm, rfl⟩
    rcases List.mem_filterMap.mp hterm with ⟨n, hn, term⟩
    rcases List.mem_filter.mp hn with ⟨hn, kind⟩
    rcases List.mem_iff_getElem?.mp hn with ⟨v, hv⟩
    rw [termOf?, h.left.tableNamed_eq hv] at term
    rcases Option.map_eq_some_iff.mp term with ⟨t, ht, entry⟩
    have value := (h.left.arranged.mem_value hv).mpr (beq_iff_eq.mp kind)
    exact stored.utility v value t ht x (mem_data_of_entry entry)
  rw [h.right.utilityOf_pathOf (h.pathUtility.trans additive), h.tables]
  refine except_bind_eq_ok.mpr ⟨terms', run', ?_⟩
  rw [← sum, sum_perm perm finite]

theorem Alike.range_le {low high low' high' : ℚ} (hd : d.IsRange low high)
    (he : e.IsRange low' high') : low' ≤ low ∧ high ≤ high' := by
  have within {u : ℚ} (hu : ∃ p, inRange d.states p = true ∧ d.utilityOf p = .ok (finite u)) :
      low' ≤ u ∧ u ≤ high' := by
    rcases hu with ⟨p, hp, value⟩
    rcases h.left.exists_pathOf (length_of_inRange hp) with ⟨a, rfl⟩
    have assigns := h.left.inRange_pathOf.mp hp
    rcases he.bounds _ (h.right.inRange_pathOf.mpr assigns) _ (h.utilityOf stored additive value)
      with ⟨r, same, bounds⟩
    obtain rfl : u = r := by injection same
    exact bounds
  exact ⟨(within hd.low).1, (within hd.high).2⟩

/-- Utilities of alike diagrams range between the same extremes. -/
theorem Alike.utilityRange {range : Exact × Exact} (hr : d.utilityRange = .ok range) :
    e.utilityRange = .ok range := by
  obtain ⟨range', hr'⟩ : ∃ range', e.utilityRange = .ok range' := by
    rw [utilityRange_eq] at hr ⊢
    rcases except_bind_eq_ok.mp hr with ⟨us, run, -⟩
    refine exists_except_map (exists_except_mapM fun p hp => ?_)
    have inside := Paths.mem_toList_ofStates.mp hp
    rcases h.right.exists_pathOf (length_of_inRange inside) with ⟨a, rfl⟩
    have assigns := h.left.inRange_pathOf.mpr (h.right.inRange_pathOf.mp inside)
    rcases except_eq_ok_of_mem_mapM run (Paths.mem_toList_ofStates.mpr assigns) with ⟨u, -, value⟩
    exact ⟨u, h.utilityOf stored additive value⟩
  have additive' := h.pathUtility.trans additive
  have stored' := h.stored stored
  rcases utilityRange_eq_ok h.left.arranged stored additive hr with ⟨low, high, rfl, hd⟩
  rcases utilityRange_eq_ok h.right.arranged stored' additive' hr' with ⟨low', high', rfl, he⟩
  have upper := h.range_le stored additive hd he
  have lower := h.symm.range_le stored' additive' he hd
  rw [hr', le_antisymm upper.1 lower.1, le_antisymm lower.2 upper.2]

end Values

end Evaluation

end Diagram

end Influence
