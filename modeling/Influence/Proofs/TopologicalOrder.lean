import Mathlib.Data.Fintype.Card
import Mathlib.Data.List.Lex
import Mathlib.Logic.Relation
import Mathlib.Order.WellFounded
import Influence.Proofs.Renumbering

/-!
# Topological orders

Assembly succeeds if and only if information sets name nodes with states and the parents of these
nodes form no directed cycle (`generateArcs_topological`).  The nodes with states then stand in the
least topological order: of all orders in which parents come first, the one whose positions in the
list of added nodes come first lexicographically.  Where there is a cycle, the nodes that are left
over, which the error names, are those on a cycle and those behind one.

What is placed has its parents in front of it, and so do they, down to a node without parents: no
cycle is behind a placed node (`not_behindCycle`).  What is left over has a parent that is left over
(`exists_left_of_mem`), and among finitely many nodes such a chain of parents runs into a cycle
(`behindCycle_of_closed`).

That the order is the least one needs no graph: at every step the first node that is ready is
placed, and any other order has a ready node in its place (`exists_placeAll_precedes`).
-/

namespace Influence

/-! ## Cycles of a relation -/

section Cycles

variable {β : Type} {R : β → β → Prop} {x : β}

/-- On a directed cycle, or reached from one. -/
def BehindCycle (R : β → β → Prop) (x : β) : Prop :=
  ∃ m, Relation.TransGen R m m ∧ Relation.ReflTransGen R m x

/-- Where every step back goes down in rank, no cycle is behind. -/
theorem not_behindCycle {P : β → Prop} (rank : β → ℕ)
    (lower : ∀ x, P x → ∀ y, R y x → P y ∧ rank y < rank x) (hx : P x) : ¬ BehindCycle R x := by
  rintro ⟨m, cycle, reaches⟩
  have back {y : β} (steps : Relation.ReflTransGen R y x) : P y := by
    induction steps using Relation.ReflTransGen.head_induction_on with
    | refl => exact hx
    | head step _ ih => exact (lower _ ih _ step).1
  have descends {y z : β} (hz : P z) (steps : Relation.TransGen R y z) : rank y < rank z := by
    induction steps with
    | single step => exact (lower _ hz _ step).2
    | tail _ step ih =>
      obtain ⟨between, less⟩ := lower _ hz _ step
      exact (ih between).trans less
  exact lt_irrefl _ (descends (back reaches) cycle)

/-- A finite set in which every element has a predecessor lies behind cycles. -/
theorem behindCycle_of_closed {s : Set β} (finite : s.Finite)
    (closed : ∀ x ∈ s, ∃ y ∈ s, R y x) (hx : x ∈ s) : BehindCycle R x := by
  by_contra free
  -- The predecessors of `x` in the set: without a cycle one of them would have no predecessor.
  set before : Set β := {y | y ∈ s ∧ Relation.ReflTransGen R y x} with hbefore
  have : Finite before := (finite.subset fun y hy => hy.1).to_subtype
  have : IsTrans before fun a b => Relation.TransGen R (a : β) b :=
    ⟨fun _ _ _ first second => first.trans second⟩
  have : Std.Irrefl fun a b : before => Relation.TransGen R (a : β) b :=
    ⟨fun a cycle => free ⟨a, cycle, a.2.2⟩⟩
  have wellFounded : WellFounded fun a b : before => Relation.TransGen R (a : β) b :=
    Finite.wellFounded_of_trans_of_irrefl _
  obtain ⟨⟨m, member, reaches⟩, -, least⟩ :=
    wellFounded.has_min Set.univ ⟨⟨x, hx, .refl⟩, trivial⟩
  obtain ⟨y, hy, step⟩ := closed m member
  exact least ⟨y, hy, .head step reaches⟩ trivial (.single step)

end Cycles

/-! ## Lists in lexicographic order -/

/-- The first list is the second or comes before it lexicographically. -/
def Precedes (xs ys : List ℕ) : Prop := xs = ys ∨ List.Lex (· < ·) xs ys

namespace Precedes

variable {x y : ℕ} {xs ys : List ℕ}

theorem nil (ys : List ℕ) : Precedes [] ys := by
  cases ys with
  | nil => exact .inl rfl
  | cons y ys => exact .inr .nil

theorem head (less : x < y) : Precedes (x :: xs) (y :: ys) := .inr (.rel less)

theorem cons (h : Precedes xs ys) : Precedes (x :: xs) (x :: ys) :=
  h.imp (congrArg (x :: ·)) .cons

theorem antisymm (h : Precedes xs ys) (h' : Precedes ys xs) : xs = ys := by
  rcases h with same | before
  · exact same
  · rcases h' with same | after
    · exact same.symm
    · exact absurd after (Std.Asymm.asymm xs ys before)

/-- A list in ascending order comes before its permutations. -/
theorem of_ascending (ascending : xs.Pairwise (· < ·)) (perm : ys.Perm xs) : Precedes xs ys := by
  induction xs generalizing ys with
  | nil => exact .nil ys
  | cons x xs ih =>
    obtain ⟨least, rest⟩ := List.pairwise_cons.mp ascending
    cases ys with
    | nil => exact absurd perm.symm (List.cons_ne_nil x xs ∘ List.perm_nil.mp)
    | cons y ys =>
      rcases List.mem_cons.mp (perm.mem_iff.mp List.mem_cons_self) with same | later
      · subst same
        exact (ih rest perm.cons_inv).cons
      · exact .head (least y later)

end Precedes

/-! ## Orders by position -/

namespace Diagram

variable {α : Type}

/-- Placing goes on behind what is placed. -/
theorem exists_placeAll_eq (parents : List (List ℕ)) (placed waiting : List ℕ) :
    ∃ rest, placeAll parents placed waiting = placed ++ rest := by
  fun_induction placeAll parents placed waiting with
  | case1 placed waiting none => exact ⟨[], (List.append_nil placed).symm⟩
  | case2 placed waiting p found shorter ih =>
    obtain ⟨rest, eq⟩ := ih
    exact ⟨p :: rest, by rw [eq, List.append_assoc, List.singleton_append]⟩

/-- What waits and is not placed has a parent that is not placed. -/
theorem exists_left_of_mem {parents : List (List ℕ)} {placed waiting : List ℕ} {p : ℕ}
    (waits : p ∈ waiting) (left : p ∉ placeAll parents placed waiting) :
    ∃ q ∈ parents.getD p [], q ∉ placeAll parents placed waiting := by
  fun_induction placeAll parents placed waiting with
  | case1 placed waiting stuck =>
    simpa using List.find?_eq_none.mp stuck p waits
  | case2 placed waiting r found shorter ih =>
    refine ih ((List.mem_erase_of_ne fun same => left ?_).mpr waits) left
    obtain ⟨rest, eq⟩ := exists_placeAll_eq parents (placed ++ [r]) (waiting.erase r)
    rw [eq, same]
    exact List.mem_append_left _ (List.mem_append_right _ (List.mem_singleton_self r))

/-- Every position of the order has its parents in front of it or among those placed before. -/
def Follows (parents : List (List ℕ)) (placed order : List ℕ) : Prop :=
  ∀ front p back, order = front ++ p :: back → ∀ q ∈ parents.getD p [], q ∈ placed ∨ q ∈ front

theorem Follows.tail {parents : List (List ℕ)} {placed order : List ℕ} {p : ℕ}
    (h : Follows parents placed (p :: order)) : Follows parents (placed ++ [p]) order := by
  intro front r back split q hq
  have split : p :: order = (p :: front) ++ r :: back := by rw [split, List.cons_append]
  rcases h (p :: front) r back split q hq with before | among
  · exact .inl (List.mem_append_left _ before)
  · rcases List.mem_cons.mp among with rfl | among
    · exact .inl (List.mem_append_right _ (List.mem_singleton_self q))
    · exact .inr among

/-- Of all orders in which parents come first, placing finds the lexicographically least. -/
theorem exists_placeAll_precedes {parents : List (List ℕ)} {placed waiting order : List ℕ}
    (ascending : waiting.Pairwise (· < ·)) (perm : order.Perm waiting)
    (follows : Follows parents placed order) :
    ∃ rest, placeAll parents placed waiting = placed ++ rest ∧ Precedes rest order := by
  have ready {p : ℕ} {rest placed : List ℕ} (follows : Follows parents placed (p :: rest)) :
      ((parents.getD p []).all placed.contains) = true := by
    refine List.all_eq_true.mpr fun q hq => List.contains_iff_mem.mpr ?_
    exact (follows [] p rest rfl q hq).resolve_right List.not_mem_nil
  fun_induction placeAll parents placed waiting generalizing order with
  | case1 placed waiting stuck =>
    refine ⟨[], (List.append_nil placed).symm, ?_⟩
    cases order with
    | nil => exact .inl rfl
    | cons p rest =>
      have waits : p ∈ waiting := perm.mem_iff.mp List.mem_cons_self
      exact absurd (ready follows) (List.find?_eq_none.mp stuck p waits)
  | case2 placed waiting r found shorter ih =>
    have member : r ∈ waiting := List.mem_of_find?_eq_some found
    cases order with
    | nil => exact absurd (perm.mem_iff.mpr member) List.not_mem_nil
    | cons p rest =>
      have waits : p ∈ waiting := perm.mem_iff.mp List.mem_cons_self
      -- The first ready position that waits is the least one.
      have least : r ≤ p := by
        obtain ⟨-, before, after, split, unready⟩ := List.find?_eq_some_iff_append.mp found
        rw [split] at waits ascending
        rcases List.mem_append.mp waits with early | late
        · have not_ready := unready p early
          rw [ready follows] at not_ready
          cases not_ready
        · rcases List.mem_cons.mp late with rfl | late
          · exact le_rfl
          · exact ((List.pairwise_cons.mp (List.pairwise_append.mp ascending).2.1).1 p late).le
      rcases least.lt_or_eq with less | rfl
      · obtain ⟨others, eq⟩ := exists_placeAll_eq parents (placed ++ [r]) (waiting.erase r)
        refine ⟨r :: others, by rw [eq, List.append_assoc, List.singleton_append], ?_⟩
        exact .head less
      · have shorter : rest.Perm (waiting.erase r) :=
          List.Perm.cons_inv (perm.trans (List.perm_cons_erase member))
        obtain ⟨others, eq, before⟩ := ih (ascending.sublist List.erase_sublist) shorter follows.tail
        refine ⟨r :: others, by rw [eq, List.append_assoc, List.singleton_append], ?_⟩
        exact before.cons

end Diagram

/-! ## Parents among nodes -/

/-- The first node is a parent of the second, among given nodes with states. -/
structure IsParent (ns : List Node) (m n : Node) : Prop where
  parent : m ∈ ns ∧ m.isValue = false
  child : n ∈ ns ∧ n.isValue = false
  listed : m.name ∈ n.informationSet

/-- Information sets name nodes with states. -/
def KnownParents (ns : List Node) : Prop :=
  ∀ n ∈ ns, ∀ q ∈ n.informationSet, ∃ m ∈ ns, m.name = q ∧ m.isValue = false

/-- No chain of parents leads back to where it starts. -/
def Acyclic (ns : List Node) : Prop := ∀ n, ¬ Relation.TransGen (IsParent ns) n n

/-- An order of the nodes with states in which no node stands in front of its parent. -/
structure TopologicalOrder (ns order : List Node) : Prop where
  perm : order.Perm (ns.filter fun n => !n.isValue)
  parentsFirst : order.Pairwise fun a b => b.name ∉ a.informationSet

theorem Node.not_own_parent {n : Node} (faultless : n.fault? = none) :
    n.name ∉ n.informationSet := by
  intro own
  simp only [fault?, own, if_true] at faultless
  split_ifs at faultless

/-! ## Positions of nodes -/

theorem filterMap_positionsWhere_nodes (ns : List Node) (keep : Node → Bool) :
    (Diagram.positionsWhere ns keep).filterMap (ns[·]?) = ns.filter keep := by
  rw [Diagram.filterMap_positionsWhere (g := some) fun i n hn _ => hn, List.filterMap_some]

section Positions

variable {ns : List Node} (distinct : ns.Nodup)

include distinct

theorem idxOf_of_getElem? {i : ℕ} {n : Node} (hn : ns[i]? = some n) : ns.idxOf n = i := by
  obtain ⟨inside, rfl⟩ := List.getElem?_eq_some_iff.mp hn
  exact distinct.idxOf_getElem i inside

theorem map_idxOf_filterMap {order : List ℕ} (inside : ∀ p ∈ order, p < ns.length) :
    (order.filterMap (ns[·]?)).map ns.idxOf = order := by
  induction order with
  | nil => rfl
  | cons p order ih =>
    obtain ⟨here, rest⟩ := List.forall_mem_cons.mp inside
    have node : ns[p]? = some ns[p] := List.getElem?_eq_getElem here
    rw [List.filterMap_cons_some node, List.map_cons, ih rest, idxOf_of_getElem? distinct node]

theorem map_idxOf_filter (keep : Node → Bool) :
    (ns.filter keep).map ns.idxOf = Diagram.positionsWhere ns keep := by
  rw [← filterMap_positionsWhere_nodes, map_idxOf_filterMap distinct]
  intro p hp
  obtain ⟨n, hn, -⟩ := Diagram.mem_positionsWhere.mp hp
  exact (List.getElem?_eq_some_iff.mp hn).1

end Positions

/-! ## What is placed -/

namespace Diagram

theorem Placing.perm {nodes : List Node} {parents : List (List ℕ)} {placed : List ℕ}
    (h : Placing nodes parents placed) : placed.Perm (positionsWhere nodes fun n => !n.isValue) := by
  refine (List.perm_ext_iff_of_nodup h.distinct (nodup_positionsWhere _ _)).mpr fun p => ?_
  rw [h.complete, mem_positionsWhere_inner]

section Placed

variable {α : Type} {d : Diagram α} (names : (d.nodes.map (·.name)).Nodup)
  {parents : List (List ℕ)}
  (known : (parentPositions d.nodes : Except (DiagramError α) (List (List ℕ))) = .ok parents)

include names known

theorem mem_parents_iff {p q : ℕ} {n m : Node} (hn : d.nodes[p]? = some n)
    (hm : d.nodes[q]? = some m) : q ∈ parents.getD p [] ↔ m.name ∈ n.informationSet := by
  rw [← nameOf_parents names known hn, List.mem_map]
  refine ⟨fun listed => ⟨q, listed, nameOf_eq hm⟩, ?_⟩
  rintro ⟨r, listed, same⟩
  obtain ⟨k, hk, -⟩ := isInner_of_parentPositions known listed
  rw [nameOf_eq hk] at same
  have place {i : ℕ} {k : Node} (hk : d.nodes[i]? = some k) : d.position? k.name = some i :=
    (position?_eq_some_iff names).mpr ⟨k, hk, rfl⟩
  have here : r = q := Option.some.inj ((place hk).symm.trans (same ▸ place hm))
  exact here ▸ listed

/-- Placed are the nodes that no cycle is behind. -/
theorem mem_placeAll_iff {p : ℕ} {n : Node} (hn : d.nodes[p]? = some n)
    (inner : n.isValue = false) :
    p ∈ placeAll parents [] (positionsWhere d.nodes fun n => !n.isValue) ↔
      ¬ BehindCycle (IsParent d.nodes) n := by
  have distinct : d.nodes.Nodup := names.of_map
  set waiting := positionsWhere d.nodes fun n => !n.isValue with hwaiting
  constructor
  · intro placed
    have fresh : ([] ++ waiting).Nodup := by
      rw [List.nil_append]
      exact nodup_positionsWhere _ _
    have first : ParentsFirst parents (placeAll parents [] waiting) :=
      (parentsFirst_placeAll fresh fun _ h => nomatch h).2
    refine not_behindCycle (P := fun x => x ∈ d.nodes ∧
      d.nodes.idxOf x ∈ placeAll parents [] waiting)
      (fun x => (placeAll parents [] waiting).idxOf (d.nodes.idxOf x)) ?_
      ⟨List.mem_of_getElem? hn, idxOf_of_getElem? distinct hn ▸ placed⟩
    rintro x ⟨hx, placed⟩ y ⟨⟨hy, -⟩, -, listed⟩
    have listed := (mem_parents_iff names known (List.getElem?_idxOf hx)
      (List.getElem?_idxOf hy)).mpr listed
    obtain ⟨before, less⟩ := first _ placed _ listed
    exact ⟨⟨hy, before⟩, less⟩
  · intro free
    by_contra left
    refine free (behindCycle_of_closed (s := {x | (x ∈ d.nodes ∧ x.isValue = false) ∧
      d.nodes.idxOf x ∉ placeAll parents [] waiting}) ?_ ?_
      ⟨⟨List.mem_of_getElem? hn, inner⟩, (idxOf_of_getElem? distinct hn).symm ▸ left⟩)
    · exact (List.finite_toSet d.nodes).subset fun x hx => hx.1.1
    · rintro x ⟨⟨hx, innerX⟩, left⟩
      have node : d.nodes[d.nodes.idxOf x]? = some x := List.getElem?_idxOf hx
      have waits : d.nodes.idxOf x ∈ waiting := mem_positionsWhere_inner.mpr ⟨x, node, innerX⟩
      obtain ⟨q, listed, leftQ⟩ := exists_left_of_mem waits left
      obtain ⟨y, hy, innerY⟩ := isInner_of_parentPositions known listed
      have member : y ∈ d.nodes := List.mem_of_getElem? hy
      exact ⟨y, ⟨⟨member, innerY⟩, (idxOf_of_getElem? distinct hy).symm ▸ leftQ⟩,
        ⟨member, innerY⟩, ⟨hx, innerX⟩, (mem_parents_iff names known node hy).mp listed⟩

/-- A topological order, by position. -/
theorem follows_of_topologicalOrder (faultless : ∀ n ∈ d.nodes, n.fault? = none) {order : List Node}
    (h : TopologicalOrder d.nodes order) : Follows parents [] (order.map d.nodes.idxOf) := by
  intro front p back split q listed
  refine .inr ?_
  obtain ⟨before, rest, rfl, rfl, behind⟩ := List.map_eq_append_iff.mp split
  obtain ⟨n, after, rfl, rfl, rfl⟩ := List.map_eq_cons_iff.mp behind
  obtain ⟨m, hm, inner⟩ := isInner_of_parentPositions known listed
  have inside {k : Node} (hk : k ∈ before ++ n :: after) : k ∈ d.nodes :=
    List.mem_of_mem_filter (h.perm.mem_iff.mp hk)
  have hn : n ∈ d.nodes := inside (List.mem_append_right _ List.mem_cons_self)
  have parent := (mem_parents_iff names known (List.getElem?_idxOf hn) hm).mp listed
  have member : m ∈ before ++ n :: after :=
    h.perm.mem_iff.mpr (List.mem_filter.mpr ⟨List.mem_of_getElem? hm, by rw [inner]; rfl⟩)
  rcases List.mem_append.mp member with early | late
  · exact List.mem_map.mpr ⟨m, early, idxOf_of_getElem? names.of_map hm⟩
  · rcases List.mem_cons.mp late with rfl | late
    · exact absurd parent (Node.not_own_parent (faultless m hn))
    · have ordered := (List.pairwise_append.mp h.parentsFirst).2.1
      exact absurd parent ((List.pairwise_cons.mp ordered).1 m late)

/-- A complete placing is a topological order. -/
theorem Placing.topologicalOrder {placed : List ℕ} (h : Placing d.nodes parents placed) :
    TopologicalOrder d.nodes (placed.filterMap (d.nodes[·]?)) := by
  constructor
  · rw [← filterMap_positionsWhere_nodes]
    exact h.perm.filterMap _
  · refine List.Pairwise.filterMap _ (R := fun p q => q ∉ parents.getD p []) ?_ ?_
    · intro p q apart n hn m hm listed
      exact apart ((mem_parents_iff names known hn hm).mpr listed)
    · refine List.pairwise_iff_getElem.mpr fun i j hi hj less listed => ?_
      have before := (h.first _ (List.getElem_mem hi) _ listed).2
      rw [h.distinct.idxOf_getElem, h.distinct.idxOf_getElem] at before
      exact absurd before (Nat.not_lt_of_lt less)

/-- Nothing is left over exactly where there is no cycle. -/
theorem forall_mem_placeAll_iff :
    (∀ p ∈ positionsWhere d.nodes (fun n => !n.isValue),
      p ∈ placeAll parents [] (positionsWhere d.nodes fun n => !n.isValue)) ↔
      Acyclic d.nodes := by
  constructor
  · intro complete n cycle
    obtain ⟨-, -, -, ⟨hn, inner⟩, -⟩ := Relation.TransGen.tail'_iff.mp cycle
    have node : d.nodes[d.nodes.idxOf n]? = some n := List.getElem?_idxOf hn
    refine (mem_placeAll_iff names known node inner).mp (complete _ ?_) ⟨n, cycle, .refl⟩
    exact mem_positionsWhere_inner.mpr ⟨n, node, inner⟩
  · intro acyclic p waits
    obtain ⟨n, hn, inner⟩ := mem_positionsWhere_inner.mp waits
    exact (mem_placeAll_iff names known hn inner).mpr fun ⟨m, cycle, _⟩ => acyclic m cycle

/-- What is placed comes first among all topological orders. -/
theorem precedes_of_topologicalOrder (faultless : ∀ n ∈ d.nodes, n.fault? = none)
    {order : List Node} (h : TopologicalOrder d.nodes order) :
    Precedes (placeAll parents [] (positionsWhere d.nodes fun n => !n.isValue))
      (order.map d.nodes.idxOf) := by
  have perm : (order.map d.nodes.idxOf).Perm (positionsWhere d.nodes fun n => !n.isValue) := by
    rw [← map_idxOf_filter names.of_map]
    exact h.perm.map _
  obtain ⟨rest, eq, before⟩ := exists_placeAll_precedes (pairwise_positionsWhere _ _) perm
    (follows_of_topologicalOrder names known faultless h)
  rwa [eq, List.nil_append]

/-- The error for a cycle names the nodes that a cycle is behind. -/
theorem exists_fails_generateArcs (building : d.phase = .building) (cyclic : ¬ Acyclic d.nodes) :
    ∃ looped : List Node, looped.Sublist d.nodes ∧ (∀ n, n ∈ looped ↔ BehindCycle (IsParent d.nodes) n) ∧
      Fails generateArcs d (.cyclicGraph (looped.map (·.name))) d := by
  set waiting := positionsWhere d.nodes fun n => !n.isValue with hwaiting
  set left := waiting.filter fun p => !(placeAll parents [] waiting).contains p with hleft
  have some_left : left ≠ [] := by
    rw [hleft, Ne, nothingLeft_iff, forall_mem_placeAll_iff names known]
    exact cyclic
  refine ⟨left.filterMap (d.nodes[·]?), ?_, fun n => ?_, ?_⟩
  · have nodes : (left.filterMap (d.nodes[·]?)).Sublist (waiting.filterMap (d.nodes[·]?)) :=
      List.filter_sublist.filterMap _
    rw [hwaiting, filterMap_positionsWhere_nodes] at nodes
    exact nodes.trans List.filter_sublist
  · rw [List.mem_filterMap]
    constructor
    · rintro ⟨p, hp, hn⟩
      obtain ⟨waits, out⟩ := List.mem_filter.mp hp
      obtain ⟨m, hm, inner⟩ := mem_positionsWhere_inner.mp waits
      obtain rfl : m = n := Option.some.inj (hm.symm.trans hn)
      by_contra free
      have placed := (mem_placeAll_iff names known hn inner).mpr free
      simp [hwaiting, placed] at out
    · intro behind
      obtain ⟨hn, inner⟩ : n ∈ d.nodes ∧ n.isValue = false := by
        obtain ⟨m, cycle, reaches⟩ := behind
        obtain ⟨_, -, last⟩ := Relation.TransGen.tail'_iff.mp (cycle.trans_left reaches)
        exact last.child
      have node : d.nodes[d.nodes.idxOf n]? = some n := List.getElem?_idxOf hn
      refine ⟨d.nodes.idxOf n, List.mem_filter.mpr
        ⟨mem_positionsWhere_inner.mpr ⟨n, node, inner⟩, ?_⟩, node⟩
      have out := fun placed => (mem_placeAll_iff names known node inner).mp placed behind
      simpa using out
  · unfold generateArcs
    rw [fails_get_bind, if_neg (not_not.mpr building), fails_liftM_bind]
    refine .inr ⟨parents, known, ?_⟩
    dsimp only
    rw [placeReady_eq_placeAll (pairwise_positionsWhere _ _), if_pos some_left, List.map_filterMap]
    exact fails_throw.mpr ⟨rfl, rfl⟩

end Placed

/-! ## Assembly -/

section Assembly

variable {α : Type} [Scalar α] {strict : Bool} {ns : List Node} {d : Diagram α}

/-- Assembly succeeds where information sets name nodes with states and no cycle exists.  It puts the
nodes with states in the first topological order and the others behind them; where a cycle exists, it
names the nodes that one is behind. -/
theorem generateArcs_topological (added : Succeeds (ns.forM addNode) (.empty strict) () d) :
    ((∃ e, Succeeds generateArcs d () e) ↔ KnownParents ns ∧ Acyclic ns) ∧
    (∀ e, Succeeds generateArcs d () e → e.nodes.Perm ns ∧
      (∃ inner, e.nodes = inner ++ ns.filter Node.isValue ∧ TopologicalOrder ns inner ∧
        (∀ order, TopologicalOrder ns order →
          Precedes (inner.map ns.idxOf) (order.map ns.idxOf)) ∧
        (TopologicalOrder ns (ns.filter fun n => !n.isValue) →
          inner = ns.filter fun n => !n.isValue)) ∧
      (∀ i, ∀ p ∈ e.informationSet i, p < i) ∧
      ∀ i n, e.nodes[i]? = some n → (e.informationSet i).map e.nameOf = n.informationSet) ∧
    (KnownParents ns → ¬ Acyclic ns → ∃ looped : List Node, looped.Sublist ns ∧
      (∀ n, n ∈ looped ↔ BehindCycle (IsParent ns) n) ∧
      Fails generateArcs d (.cyclicGraph (looped.map (·.name))) d) := by
  obtain ⟨faultless, names, eq⟩ :=
    (succeeds_forM_addNode_iff (d := .empty strict) rfl List.nodup_nil).mp added
  have building : d.phase = .building := by rw [eq]; rfl
  obtain rfl : d.nodes = ns := by rw [eq]; rfl
  clear eq
  change (d.nodes.map (·.name)).Nodup at names
  refine ⟨⟨?_, ?_⟩, fun e run => ?_, fun known cyclic => ?_⟩
  · rintro ⟨e, run⟩
    obtain ⟨parents, known, complete, -⟩ := (succeeds_generateArcs_iff building).mp run
    refine ⟨?_, (forall_mem_placeAll_iff names known).mp complete⟩
    exact (orders_ordered names faultless known (placing_placeAll known complete)).orderable.known
  · rintro ⟨known, acyclic⟩
    obtain ⟨parents, known⟩ := exists_parentPositions names known
    exact ⟨_, (succeeds_generateArcs_iff building).mpr
      ⟨parents, known, (forall_mem_placeAll_iff names known).mpr acyclic, rfl⟩⟩
  · obtain ⟨parents, known, complete, rfl⟩ := (succeeds_generateArcs_iff building).mp run
    have placing := placing_placeAll known complete
    have orders := orders_ordered names faultless known placing
    have first {order : List Node} (h : TopologicalOrder d.nodes order) :=
      precedes_of_topologicalOrder names known faultless h
    have inside : ∀ p ∈ placeAll parents [] (positionsWhere d.nodes fun n => !n.isValue),
        p < d.nodes.length := by
      intro p hp
      obtain ⟨n, hn, -⟩ := (placing.complete p).mp hp
      exact (List.getElem?_eq_some_iff.mp hn).1
    refine ⟨orders.nodes, ⟨_, ?_, placing.topologicalOrder names known, fun order h => ?_,
      fun kept => ?_⟩, fun i p hp => (orders.arranged.parents i p hp).1, orders.parents⟩
    · change List.filterMap _ (_ ++ _) = _
      rw [List.filterMap_append, filterMap_positionsWhere_nodes]
    · rw [map_idxOf_filterMap names.of_map inside]
      exact first h
    · have added := map_idxOf_filter names.of_map fun n => !n.isValue
      have same := (added ▸ first kept).antisymm
        (.of_ascending (pairwise_positionsWhere _ _) placing.perm)
      rw [same, filterMap_positionsWhere_nodes]
  · obtain ⟨parents, known⟩ := exists_parentPositions names known
    exact exists_fails_generateArcs names known building cyclic

/-- A shop with its nodes in no order: what it sells depends on a price that is added later. -/
def shop : List Node :=
  [⟨"profit", .value, ["sale"], []⟩, ⟨"sale", .chance, ["price"], ["low", "high"]⟩,
    ⟨"price", .decision, [], ["low", "high"]⟩, ⟨"weather", .chance, [], ["dry", "wet"]⟩]

/-- A shop whose price follows its sales, and its stock both; only the weather is free. -/
def spiral : List Node :=
  [⟨"stock", .decision, ["sale", "weather"], ["low", "high"]⟩,
    ⟨"sale", .chance, ["price"], ["low", "high"]⟩, ⟨"weather", .chance, [], ["dry", "wet"]⟩,
    ⟨"price", .decision, ["sale"], ["low", "high"]⟩]

/-- Sales come as soon as the price is placed, before the weather; in the spiral all but the weather
is left over. -/
theorem generateArcs_topological_shop :
    (∃ d e : Diagram Exact, Succeeds (shop.forM addNode) (.empty true) () d ∧
      Succeeds generateArcs d () e ∧
      e.nodes.map (·.name) = ["price", "sale", "weather", "profit"] ∧
      ∃ inner, e.nodes = inner ++ shop.filter Node.isValue ∧ TopologicalOrder shop inner) ∧
    ∃ d : Diagram Exact, Succeeds (spiral.forM addNode) (.empty true) () d ∧
      Fails generateArcs d (.cyclicGraph ["stock", "sale", "price"]) d ∧
      BehindCycle (IsParent spiral) ⟨"stock", .decision, ["sale", "weather"], ["low", "high"]⟩ := by
  have accepted (ns : List Node) (faultless : ∀ n ∈ ns, n.fault? = none)
      (names : (ns.map (·.name)).Nodup) : Succeeds (ns.forM addNode) (.empty true : Diagram Exact)
        () { (.empty true : Diagram Exact) with nodes := ns } :=
    (succeeds_forM_addNode_iff (d := .empty true) rfl List.nodup_nil).mpr ⟨faultless, names, rfl⟩
  constructor
  · have added := accepted shop (by decide) (by decide)
    obtain ⟨⟨⟩, e, run, order⟩ := exists_succeeds (show succeedsWith generateArcs
      { (.empty true : Diagram Exact) with nodes := shop }
      (fun _ e => e.nodes.map (·.name) == ["price", "sale", "weather", "profit"]) = true by
        decide +kernel)
    obtain ⟨-, ⟨inner, nodes, topological, -⟩, -⟩ := (generateArcs_topological added).2.1 e run
    exact ⟨_, e, added, run, beq_iff_eq.mp order, inner, nodes, topological⟩
  · have added := accepted spiral (by decide) (by decide)
    have priced : IsParent spiral ⟨"sale", .chance, ["price"], ["low", "high"]⟩
        ⟨"price", .decision, ["sale"], ["low", "high"]⟩ := by constructor <;> decide
    have sold : IsParent spiral ⟨"price", .decision, ["sale"], ["low", "high"]⟩
        ⟨"sale", .chance, ["price"], ["low", "high"]⟩ := by constructor <;> decide
    have stocked : IsParent spiral ⟨"sale", .chance, ["price"], ["low", "high"]⟩
        ⟨"stock", .decision, ["sale", "weather"], ["low", "high"]⟩ := by constructor <;> decide
    have cycle := Relation.TransGen.tail (.single priced) sold
    have known : KnownParents spiral := by
      unfold KnownParents
      decide
    obtain ⟨looped, -, behind, failed⟩ :=
      (generateArcs_topological added).2.2 known fun acyclic => acyclic _ cycle
    obtain ⟨error, _, evaluated, names⟩ := exists_fails (show failsWith generateArcs
      { (.empty true : Diagram Exact) with nodes := spiral }
      (fun e => decide (e = .cyclicGraph ["stock", "sale", "price"])) = true by decide +kernel)
    obtain rfl := of_decide_eq_true names
    obtain ⟨same, -⟩ := Prod.mk.inj (failed.symm.trans evaluated)
    exact ⟨_, added, Except.error.inj same ▸ failed, _, cycle, .single stocked⟩

end Assembly

end Diagram

end Influence
