import Mathlib.Algebra.BigOperators.Group.Finset.Basic
import Mathlib.Algebra.BigOperators.Ring.Finset
import Mathlib.Data.List.Find
import Influence.Proofs.Building
import Influence.Proofs.Feasible
import Influence.Proofs.Strategies

/-!
# Decision variables and strategies

An assignment that makes exactly one bit of every block one (`IsChoice`) is a strategy:
`strategyOf` reads it off, `strategy` succeeds with it on a solution in which the variables that
count as chosen are those that the assignment makes one (`strategy_eq_ok_of_threshold`), and it is a
strategy for the diagram (`isFor_strategyOf`).  A path follows it exactly where all the decision
variables that the path selects are one (`follows_strategyOf_iff`).

In the other direction the bits that `picked` singles out, one of each block, make every
strategy that covers the diagram (`local?_strategyOf_bitsOf`).
-/

namespace Influence

open Extended

variable {α : Type}

/-! ## Cells -/

namespace LocalVariables

variable {d : Diagram α} {l : LocalVariables}

/-- The variable of a state at an information state in range. -/
def cell (l : LocalVariables) (q : List ℕ) (s : ℕ) : ℕ :=
  l.vars.getD (rank l.shape q * l.states + s) 0

theorem index_lt (h : l.IsFor d) {q : List ℕ} (hq : inRange l.shape q = true) {s : ℕ}
    (hs : s < l.states) : rank l.shape q * l.states + s < l.vars.length := by
  have hr := rank_lt_prod hq
  rw [h.length]
  calc rank l.shape q * l.states + s < rank l.shape q * l.states + l.states := by omega
    _ = (rank l.shape q + 1) * l.states := (Nat.succ_mul _ _).symm
    _ ≤ l.shape.prod * l.states := Nat.mul_le_mul_right _ hr

theorem cell_eq (h : l.IsFor d) {q : List ℕ} (hq : inRange l.shape q = true) {s : ℕ}
    (hs : s < l.states) : l.vars[rank l.shape q * l.states + s]? = some (l.cell q s) := by
  have hlt := index_lt h hq hs
  rw [cell, List.getD_eq_getElem _ _ hlt, List.getElem?_eq_getElem hlt]

theorem cell_mem (h : l.IsFor d) {q : List ℕ} (hq : inRange l.shape q = true) {s : ℕ}
    (hs : s < l.states) : l.cell q s ∈ l.vars := List.mem_of_getElem? (cell_eq h hq hs)

/-- Every variable is the cell of some state. -/
theorem exists_cell (h : l.IsFor d) {v : ℕ} (hv : v ∈ l.vars) :
    ∃ q s, inRange l.shape q = true ∧ s < l.states ∧ v = l.cell q s := by
  obtain ⟨k, hk, rfl⟩ := List.mem_iff_getElem.mp hv
  have bound := h.length ▸ hk
  have pos : 0 < l.states := Nat.pos_of_ne_zero fun zero => by simp [zero] at bound
  have row : k / l.states < (Paths.ofStates l.shape).toList.length := by
    rw [Paths.length_toList_ofStates]
    exact Nat.div_lt_of_lt_mul (by rwa [Nat.mul_comm] at bound)
  have at_row := List.getElem?_eq_getElem row
  refine ⟨(Paths.ofStates l.shape).toList[k / l.states], k % l.states,
    Paths.mem_toList_ofStates.mp (List.getElem_mem row), Nat.mod_lt k pos, ?_⟩
  rw [cell, Paths.rank_of_toList_ofStates_getElem? at_row, Nat.div_add_mod',
    List.getD_eq_getElem _ _ hk]

private theorem drop_take_eq (h : l.IsFor d) {q : List ℕ} (hq : inRange l.shape q = true) :
    (l.vars.drop (rank l.shape q * l.states)).take l.states =
      (List.range l.states).map (l.cell q) := by
  refine List.ext_getElem? fun s => ?_
  by_cases hs : s < l.states
  · rw [List.getElem?_take_of_lt hs, List.getElem?_drop, cell_eq h hq hs, List.getElem?_map,
      List.getElem?_range hs]
    rfl
  · rw [List.getElem?_eq_none (by simp; omega), List.getElem?_eq_none (by simpa using hs)]

/-- The block of an information state. -/
theorem blocks_getElem? (h : l.IsFor d) {q : List ℕ} (hq : inRange l.shape q = true) :
    l.blocks[rank l.shape q]? = some ((List.range l.states).map (l.cell q)) := by
  rw [blocks, List.getElem?_map, List.getElem?_range (rank_lt_prod hq), Option.map_some,
    drop_take_eq h hq]

theorem mem_blocks_iff (h : l.IsFor d) {g : List ℕ} :
    g ∈ l.blocks ↔
      ∃ q, inRange l.shape q = true ∧ g = (List.range l.states).map (l.cell q) := by
  constructor
  · intro hg
    obtain ⟨k, hk, rfl⟩ := List.mem_map.mp hg
    rw [List.mem_range, ← Paths.length_toList_ofStates] at hk
    have at_k := List.getElem?_eq_getElem hk
    have hq := Paths.mem_toList_ofStates.mp (List.getElem_mem hk)
    refine ⟨_, hq, ?_⟩
    rw [← drop_take_eq h hq, Paths.rank_of_toList_ofStates_getElem? at_k]
  · rintro ⟨q, hq, rfl⟩
    exact List.mem_of_getElem? (blocks_getElem? h hq)

private theorem groupStart_eq (h : l.IsFor d) (pos : 0 < l.states)
    (small : l.vars.length < Word.count64) {q : List ℕ} (hq : inRange l.shape q = true) :
    l.groupStart q = rank l.shape q * l.states := by
  have count : l.shape.prod ≤ l.vars.length := h.length ▸ Nat.le_mul_of_pos_right _ pos
  have inside := index_lt h hq pos
  rw [groupStart, dot_strides_of_lt (count.trans_lt small) hq, word_of_lt (by omega)]

theorem group_eq (h : l.IsFor d) (pos : 0 < l.states) (small : l.vars.length < Word.count64)
    {q : List ℕ} (hq : inRange l.shape q = true) :
    l.group q = (List.range l.states).map (l.cell q) := by
  rw [group, groupStart_eq h pos small hq, drop_take_eq h hq]

/-- The variable that a path in range selects. -/
theorem variableOn?_eq (h : l.IsFor d) (pos : 0 < l.states)
    (small : l.vars.length < Word.count64) {p : Path}
    (hq : inRange l.shape (l.informationSet.map fun i => p.getD i 0) = true)
    (hs : p.getD l.node 0 < l.states) (hn : l.node < p.length) :
    l.variableOn? p =
      some (l.cell (l.informationSet.map fun i => p.getD i 0) (p.getD l.node 0)) := by
  have own : p[l.node]? = some (p.getD l.node 0) := by
    rw [List.getD_eq_getElem _ _ hn, List.getElem?_eq_getElem hn]
  unfold variableOn?
  rw [own, groupStart_eq h pos small hq]
  exact cell_eq h hq hs

end LocalVariables

namespace DecisionVariables

variable {d : Diagram α} {z : DecisionVariables} {start : ℕ}

namespace LaidOut

theorem nodup_vars (h : LaidOut d z start) : z.vars.Nodup := by
  rw [h.vars]
  exact List.nodup_range'

theorem nodup_nodes (h : LaidOut d z start) (arranged : d.Arranged) :
    (z.locals.map (·.node)).Nodup := by
  rw [h.nodes, arranged.decision]
  exact Diagram.nodup_positionsWhere _ _

theorem node_mem (h : LaidOut d z start) {l : LocalVariables} (hl : l ∈ z.locals) :
    l.node ∈ d.decision := h.nodes ▸ List.mem_map_of_mem hl

theorem local?_eq (h : LaidOut d z start) (arranged : d.Arranged) {l : LocalVariables}
    (hl : l ∈ z.locals) : z.local? l.node = some l :=
  find?_key_eq (f := LocalVariables.node) (h.nodup_nodes arranged) hl

theorem exists_local (h : LaidOut d z start) {i : ℕ} (hi : i ∈ d.decision) :
    ∃ l ∈ z.locals, l.node = i := List.mem_map.mp (h.nodes.symm ▸ hi)

theorem states_pos (h : LaidOut d z start) (arranged : d.Arranged) {l : LocalVariables}
    (hl : l ∈ z.locals) : 0 < l.states := by
  rw [(h.locals l hl).states]
  exact arranged.states_getD_pos (arranged.mem_decision_lt (h.node_mem hl))

theorem length_le (_ : LaidOut d z start) {l : LocalVariables} (hl : l ∈ z.locals) :
    l.vars.length ≤ z.vars.length := by
  rw [DecisionVariables.vars, List.flatMap_def]
  exact (List.sublist_flatten_of_mem (List.mem_map_of_mem hl)).length_le

theorem prod_le (h : LaidOut d z start) (arranged : d.Arranged) {l : LocalVariables}
    (hl : l ∈ z.locals) : l.shape.prod ≤ z.vars.length :=
  calc l.shape.prod ≤ l.shape.prod * l.states :=
        Nat.le_mul_of_pos_right _ (h.states_pos arranged hl)
    _ = l.vars.length := (h.locals l hl).length.symm
    _ ≤ z.vars.length := h.length_le hl

/-- What a path observes at a decision node is in range. -/
theorem inRange_observed (h : LaidOut d z start) (arranged : d.Arranged) {l : LocalVariables}
    (hl : l ∈ z.locals) {p : Path} (hp : inRange d.states p = true) :
    inRange l.shape (l.informationSet.map fun i => p.getD i 0) = true := by
  have isFor := h.locals l hl
  rw [isFor.shape, isFor.informationSet]
  exact inRange_map_getD hp _ fun j hj => (arranged.parents _ j hj).2

/-- The variable that a path in range selects at a decision node. -/
theorem variableOn?_eq (h : LaidOut d z start) (arranged : d.Arranged)
    (small : z.vars.length < Word.count64) {l : LocalVariables} (hl : l ∈ z.locals) {p : Path}
    (hp : inRange d.states p = true) :
    z.variableOn? l.node p =
      some (l.cell (l.informationSet.map fun i => p.getD i 0) (p.getD l.node 0)) := by
  have inside := arranged.mem_decision_lt (h.node_mem hl)
  have own := getD_lt_of_inRange hp inside
  rw [variableOn?, h.local?_eq arranged hl, Option.bind_some]
  exact LocalVariables.variableOn?_eq (h.locals l hl) (h.states_pos arranged hl)
    ((h.length_le hl).trans_lt small) (h.inRange_observed arranged hl hp)
    ((h.locals l hl).states ▸ own) (length_of_inRange hp ▸ inside)

/-- The variables that a path in range selects. -/
theorem mem_selectedAt_iff (h : LaidOut d z start) (arranged : d.Arranged)
    (small : z.vars.length < Word.count64) {p : Path} (hp : inRange d.states p = true) {v : ℕ} :
    v ∈ PathVariables.selectedAt z p d.decision ↔ ∃ l ∈ z.locals,
      v = l.cell (l.informationSet.map fun i => p.getD i 0) (p.getD l.node 0) := by
  rw [PathVariables.selectedAt, List.mem_filterMap]
  constructor
  · rintro ⟨i, hi, hv⟩
    obtain ⟨l, hl, rfl⟩ := h.exists_local hi
    rw [h.variableOn?_eq arranged small hl hp, Option.some.injEq] at hv
    exact ⟨l, hl, hv.symm⟩
  · rintro ⟨l, hl, rfl⟩
    exact ⟨l.node, h.node_mem hl, h.variableOn?_eq arranged small hl hp⟩

theorem blocks_flatten (h : LaidOut d z start) : z.blocks.flatten = z.vars := by
  have locals := h.locals
  unfold blocks DecisionVariables.vars
  generalize z.locals = ls at locals
  induction ls with
  | nil => rfl
  | cons l ls ih =>
    obtain ⟨isFor, rest⟩ := List.forall_mem_cons.mp locals
    rw [List.flatMap_cons, List.flatten_append, ih rest, LocalVariables.blocks,
      flatten_map_drop_take isFor.length, List.flatMap_cons]

end LaidOut

/-! ## Assignments that choose -/

/-- Every variable is zero or one, and the values of every block sum to one. -/
structure IsChoice (z : DecisionVariables) (a : ℕ → ℚ) : Prop where
  bits : ∀ v ∈ z.vars, a v = 0 ∨ a v = 1
  one : ∀ g ∈ z.blocks, (g.map a).sum = 1

private theorem exists_single {f : ℕ → ℚ} {n : ℕ} (bits : ∀ s < n, f s = 0 ∨ f s = 1)
    (one : ((List.range n).map f).sum = 1) :
    ∃ k < n, ∀ s < n, f s = if s = k then 1 else 0 := by
  rw [← List.sum_toFinset _ List.nodup_range] at one
  have indicator : ∀ s ∈ (List.range n).toFinset, f s = if f s = 1 then 1 else 0 := by
    intro s hs
    rcases bits s (List.mem_range.mp (List.mem_toFinset.mp hs)) with h | h <;> simp [h]
  rw [Finset.sum_congr rfl indicator, Finset.sum_boole, Nat.cast_eq_one,
    Finset.card_eq_one] at one
  obtain ⟨k, hk⟩ := one
  have member (s : ℕ) : s < n ∧ f s = 1 ↔ s = k := by
    simpa using Finset.ext_iff.mp hk s
  refine ⟨k, ((member k).mpr rfl).1, fun s hs => ?_⟩
  split
  case isTrue h => exact ((member s).mpr h).2
  case isFalse h => exact (bits s hs).resolve_right fun one => h ((member s).mp ⟨hs, one⟩)

/-- The state that an assignment chooses at an information state. -/
def chosen (a : ℕ → ℚ) (l : LocalVariables) (q : List ℕ) : ℕ :=
  ((List.range l.states).find? fun s => a (l.cell q s) = 1).getD 0

/-- The choices that an assignment makes at one decision node. -/
def localOf (a : ℕ → ℚ) (l : LocalVariables) : LocalStrategy :=
  ⟨l.node, l.name, l.informationSet, l.shape, (Paths.ofStates l.shape).toList.map (chosen a l)⟩

/-- The strategy that an assignment makes. -/
def strategyOf (z : DecisionVariables) (a : ℕ → ℚ) : Strategy := ⟨z.locals.map (localOf a)⟩

theorem LaidOut.local?_strategyOf (h : LaidOut d z start) (arranged : d.Arranged)
    {a : ℕ → ℚ} {l : LocalVariables} (hl : l ∈ z.locals) :
    (strategyOf z a).local? l.node = some (localOf a l) := by
  rw [Strategy.local?, strategyOf, List.find?_map]
  exact congrArg (Option.map (localOf a)) (h.local?_eq arranged hl)

namespace IsChoice

variable {a : ℕ → ℚ}

/-- Of the bits at an information state, only that of the chosen state is one. -/
theorem cell_eq (choice : IsChoice z a) (h : LaidOut d z start) {l : LocalVariables}
    (hl : l ∈ z.locals) {q : List ℕ} (hq : inRange l.shape q = true) :
    chosen a l q < l.states ∧
      ∀ s < l.states, a (l.cell q s) = if s = chosen a l q then 1 else 0 := by
  have isFor := h.locals l hl
  have block : (List.range l.states).map (l.cell q) ∈ z.blocks :=
    List.mem_flatMap.mpr ⟨l, hl, (LocalVariables.mem_blocks_iff isFor).mpr ⟨q, hq, rfl⟩⟩
  have sum := choice.one _ block
  rw [List.map_map] at sum
  obtain ⟨k, hk, single⟩ := exists_single (f := a ∘ l.cell q) (fun s hs => choice.bits _
    (List.mem_flatMap.mpr ⟨l, hl, LocalVariables.cell_mem isFor hq hs⟩)) sum
  have found : (List.range l.states).find? (fun s => a (l.cell q s) = 1) = some k := by
    rw [List.find?_range_eq_some]
    refine ⟨?_, List.mem_range.mpr hk, fun s hs => ?_⟩
    · have := single k hk
      rw [if_pos rfl] at this
      simpa using this
    · have := single s (hs.trans hk)
      rw [if_neg hs.ne, Function.comp_apply] at this
      simp [this]
  have eq : chosen a l q = k := by
    rw [chosen, found]
    rfl
  rw [eq]
  exact ⟨hk, single⟩

/-- The choices are those of the assignment along every path. -/
theorem choiceAt_strategyOf (h : LaidOut d z start) (arranged : d.Arranged)
    (small : z.vars.length < Word.count64) {l : LocalVariables} (hl : l ∈ z.locals) {p : Path}
    (hp : inRange d.states p = true) :
    (strategyOf z a).choiceAt l.node p =
      chosen a l (l.informationSet.map fun i => p.getD i 0) := by
  have hq := h.inRange_observed arranged hl hp
  have count : l.shape.prod < Word.count64 :=
    (h.prod_le arranged hl).trans_lt small
  rw [Strategy.choiceAt, h.local?_strategyOf arranged hl, Option.map_some, Option.getD_some,
    LocalStrategy.choiceOn]
  change (((Paths.ofStates l.shape).toList.map (chosen a l)).getD
    (dot (strides l.shape) (l.informationSet.map fun i => p.getD i 0)) 0) = _
  rw [dot_strides_of_lt count hq, List.getD_eq_getElem?_getD, List.getElem?_map,
    Paths.toList_ofStates_getElem?_rank hq]
  rfl

/-- The strategy of an assignment is one for its diagram. -/
theorem isFor_strategyOf (choice : IsChoice z a) (h : LaidOut d z start) (arranged : d.Arranged)
    (assembled : d.phase ≠ .building) (small : z.vars.length < Word.count64) :
    (strategyOf z a).IsFor d where
  nodes := by
    rw [← h.nodes, strategyOf, List.map_map]
    rfl
  locals k hk := by
    obtain ⟨l, hl, rfl⟩ := List.mem_map.mp hk
    have isFor := h.locals l hl
    have number : (localOf a l).choices.length = (d.informationShape l.node).prod := by
      change ((Paths.ofStates l.shape).toList.map (chosen a l)).length = _
      rw [List.length_map, Paths.length_toList_ofStates, isFor.shape]
    refine ⟨(LocalStrategy.ofChoices_eq_ok_iff arranged assembled (h.node_mem hl)).mpr
      ⟨?_, fun c hc => ?_, ?_⟩, number⟩
    · rw [number, ← isFor.shape, entryCount_of_lt ((h.prod_le arranged hl).trans_lt small)]
    · obtain ⟨q, hq, rfl⟩ := List.mem_map.mp hc
      rw [← isFor.states]
      exact (choice.cell_eq h hl (Paths.mem_toList_ofStates.mp hq)).1
    · rw [localOf, isFor.name, isFor.informationSet, isFor.shape]

/-- The strategy of an assignment covers its diagram. -/
theorem covers_strategyOf (choice : IsChoice z a) (h : LaidOut d z start)
    (arranged : d.Arranged) (assembled : d.phase ≠ .building)
    (small : z.vars.length < Word.count64) : (strategyOf z a).Covers d :=
  (choice.isFor_strategyOf h arranged assembled small).covers arranged

/-- A path follows the strategy of an assignment where all that it selects is one. -/
theorem follows_strategyOf_iff (choice : IsChoice z a) (h : LaidOut d z start)
    (arranged : d.Arranged) (small : z.vars.length < Word.count64) {p : Path}
    (hp : inRange d.states p = true) :
    (strategyOf z a).Follows d p ↔
      ∀ v ∈ PathVariables.selectedAt z p d.decision, a v = 1 := by
  have cells {l : LocalVariables} (hl : l ∈ z.locals) :
      a (l.cell (l.informationSet.map fun i => p.getD i 0) (p.getD l.node 0)) = 1 ↔
        p.getD l.node 0 = (strategyOf z a).choiceAt l.node p := by
    have own : p.getD l.node 0 < l.states := by
      rw [(h.locals l hl).states]
      exact getD_lt_of_inRange hp (arranged.mem_decision_lt (h.node_mem hl))
    rw [choiceAt_strategyOf h arranged small hl hp,
      (choice.cell_eq h hl (h.inRange_observed arranged hl hp)).2 _ own]
    split <;> simp_all
  constructor
  · intro follows v hv
    obtain ⟨l, hl, rfl⟩ := (h.mem_selectedAt_iff arranged small hp).mp hv
    exact (cells hl).mpr (follows _ (h.node_mem hl))
  · intro ones i hi
    obtain ⟨l, hl, rfl⟩ := h.exists_local hi
    exact (cells hl).mp (ones _ ((h.mem_selectedAt_iff arranged small hp).mpr ⟨l, hl, rfl⟩))

theorem congr {b : ℕ → ℚ} (choice : IsChoice z a) (h : LaidOut d z start)
    (same : ∀ v ∈ z.vars, b v = a v) : IsChoice z b where
  bits v hv := same v hv ▸ choice.bits v hv
  one g hg := by
    rw [← choice.one g hg]
    refine congrArg List.sum (List.map_congr_left fun v hv => same v ?_)
    rw [← h.blocks_flatten]
    exact List.mem_flatten_of_mem hg hv

/-- The strategy of a choice determines its bits. -/
theorem eq_of_local?_eq {b : ℕ → ℚ} (choice : IsChoice z a) (choice' : IsChoice z b)
    (h : LaidOut d z start) (arranged : d.Arranged)
    (same : ∀ i ∈ d.decision, (strategyOf z b).local? i = (strategyOf z a).local? i) :
    ∀ v ∈ z.vars, b v = a v := by
  intro v hv
  obtain ⟨l, hl, hv⟩ := List.mem_flatMap.mp hv
  obtain ⟨q, s, hq, hs, rfl⟩ := LocalVariables.exists_cell (h.locals l hl) hv
  have choices := same l.node (h.node_mem hl)
  rw [h.local?_strategyOf arranged hl, h.local?_strategyOf arranged hl,
    Option.some.injEq] at choices
  have listed : (Paths.ofStates l.shape).toList.map (chosen b l) =
      (Paths.ofStates l.shape).toList.map (chosen a l) := congrArg LocalStrategy.choices choices
  have agree : chosen b l q = chosen a l q :=
    List.map_inj_left.mp listed q (Paths.mem_toList_ofStates.mpr hq)
  rw [(choice'.cell_eq h hl hq).2 s hs, (choice.cell_eq h hl hq).2 s hs, agree]

end IsChoice

/-- Assignments with the same bits make the same strategy. -/
theorem strategyOf_congr {a b : ℕ → ℚ} (h : LaidOut d z start)
    (same : ∀ v ∈ z.vars, b v = a v) : strategyOf z b = strategyOf z a := by
  refine congrArg Strategy.mk (List.map_congr_left fun l hl => ?_)
  have states : ∀ q ∈ (Paths.ofStates l.shape).toList, chosen b l q = chosen a l q := by
    intro q hq
    have bits : (List.range l.states).find? (fun s => b (l.cell q s) = 1) =
        (List.range l.states).find? fun s => a (l.cell q s) = 1 := by
      refine List.find?_congr fun s hs => ?_
      rw [same _ (List.mem_flatMap.mpr ⟨l, hl, LocalVariables.cell_mem (h.locals l hl)
        (Paths.mem_toList_ofStates.mp hq) (List.mem_range.mp hs)⟩)]
    rw [chosen, bits, chosen]
  rw [localOf, List.map_congr_left states, localOf]

/-! ## One bit of every block -/

/-- The member of each block that its pick singles out. -/
def picked (blocks : List (List ℕ)) (picks : List ℕ) : List ℕ :=
  (blocks.zip picks).filterMap fun (g, k) => g[k]?

/-- The assignment that makes the picked members one. -/
def bitsOf (blocks : List (List ℕ)) (picks : List ℕ) (v : ℕ) : ℚ :=
  if v ∈ picked blocks picks then 1 else 0

/-- Every pick is the position of a member of its block. -/
def Picks (blocks : List (List ℕ)) (picks : List ℕ) : Prop :=
  List.Forall₂ (fun g k => k < g.length) blocks picks

theorem mem_picked_iff {blocks : List (List ℕ)} (distinct : blocks.flatten.Nodup)
    (picks : List ℕ) {k : ℕ} {g : List ℕ} (hg : blocks[k]? = some g) {v : ℕ} (hv : v ∈ g) :
    v ∈ picked blocks picks ↔ ∃ j, picks[k]? = some j ∧ g[j]? = some v := by
  rw [picked, List.mem_filterMap]
  constructor
  · rintro ⟨⟨g', j⟩, member, hj⟩
    obtain ⟨k', at_k'⟩ := List.mem_iff_getElem?.mp member
    obtain ⟨hg', hj'⟩ := List.getElem?_zip_eq_some.mp at_k'
    have same : k' = k := by
      by_contra differ
      have apart := (List.nodup_flatten.mp distinct).2
      obtain ⟨hk, rfl⟩ := List.getElem?_eq_some_iff.mp hg
      obtain ⟨hk', rfl⟩ := List.getElem?_eq_some_iff.mp hg'
      have hv' := List.mem_of_getElem? hj
      rcases Nat.lt_or_gt_of_ne differ with lt | lt
      · exact List.pairwise_iff_getElem.mp apart k' k hk' hk lt hv' hv
      · exact List.pairwise_iff_getElem.mp apart k k' hk hk' lt hv hv'
    subst same
    rw [hg, Option.some.injEq] at hg'
    exact ⟨j, hj', hg' ▸ hj⟩
  · rintro ⟨j, hj, hv⟩
    exact ⟨(g, j), List.mem_iff_getElem?.mpr ⟨k, List.getElem?_zip_eq_some.mpr ⟨hg, hj⟩⟩, hv⟩

/-- Picking one bit of every block chooses. -/
theorem isChoice_bitsOf (h : LaidOut d z start) {picks : List ℕ} (hp : Picks z.blocks picks) :
    IsChoice z (bitsOf z.blocks picks) where
  bits v _ := by
    unfold bitsOf
    split
    · exact .inr rfl
    · exact .inl rfl
  one g hg := by
    have distinct : z.blocks.flatten.Nodup := h.blocks_flatten ▸ h.nodup_vars
    obtain ⟨k, hk, rfl⟩ := List.mem_iff_getElem.mp hg
    have hk' : k < picks.length := hp.length_eq ▸ hk
    have inside : picks[k] < z.blocks[k].length := hp.get hk hk'
    have single : ∀ v ∈ z.blocks[k].toFinset,
        bitsOf z.blocks picks v = if v = z.blocks[k][picks[k]] then 1 else 0 := by
      intro v hv
      have iff := mem_picked_iff distinct picks (List.getElem?_eq_getElem hk)
        (List.mem_toFinset.mp hv)
      refine if_congr (iff.trans ?_) rfl rfl
      simp [List.getElem?_eq_getElem hk', List.getElem?_eq_getElem inside, eq_comm]
    have block := (List.nodup_flatten.mp distinct).1 _ hg
    rw [← List.sum_toFinset _ block, Finset.sum_congr rfl single, Finset.sum_ite_eq',
      if_pos (List.mem_toFinset.mpr (List.getElem_mem inside))]

/-- The picks that a strategy makes, block by block. -/
def picksOf (z : DecisionVariables) (σ : Strategy) : List ℕ :=
  z.locals.flatMap fun l => ((σ.local? l.node).map (·.choices)).getD []

private theorem forall₂_flatMap {β γ δ : Type} {R : β → γ → Prop} {f : δ → List β}
    {g : δ → List γ} {ls : List δ} (h : ∀ l ∈ ls, List.Forall₂ R (f l) (g l)) :
    List.Forall₂ R (ls.flatMap f) (ls.flatMap g) := by
  induction ls with
  | nil => exact .nil
  | cons l ls ih =>
    obtain ⟨first, rest⟩ := List.forall_mem_cons.mp h
    exact List.rel_append first (ih rest)

section Covers

variable {σ : Strategy}

/-- The choices of a strategy at the node of some variables. -/
theorem exists_choices (covers : σ.Covers d) (h : LaidOut d z start) (arranged : d.Arranged)
    (assembled : d.phase ≠ .building) {l : LocalVariables} (hl : l ∈ z.locals) :
    ∃ choices, σ.local? l.node = some ⟨l.node, l.name, l.informationSet, l.shape, choices⟩ ∧
      choices.length = l.shape.prod ∧ ∀ c ∈ choices, c < l.states := by
  have isFor := h.locals l hl
  obtain ⟨choices, found, length, inside⟩ := covers.local_eq arranged assembled (h.node_mem hl)
  refine ⟨choices, ?_, ?_, isFor.states ▸ inside⟩
  · rw [found, isFor.name, isFor.informationSet, isFor.shape]
  · rw [length, isFor.shape]

private theorem forall₂_blocks {l : LocalVariables} (isFor : l.IsFor d) {choices : List ℕ}
    (length : choices.length = l.shape.prod) (inside : ∀ c ∈ choices, c < l.states) :
    List.Forall₂ (fun g k => k < g.length) l.blocks choices := by
  have count : l.blocks.length = choices.length := by
    rw [length, LocalVariables.blocks, List.length_map, List.length_range]
  refine List.forall₂_iff_get.mpr ⟨count, fun k hk hk' => ?_⟩
  obtain ⟨q, _, hg⟩ := (LocalVariables.mem_blocks_iff isFor).mp (List.get_mem l.blocks ⟨k, hk⟩)
  rw [hg, List.length_map, List.length_range]
  exact inside _ (List.get_mem _ _)

private theorem forall₂_blocks_picks (covers : σ.Covers d) (h : LaidOut d z start)
    (arranged : d.Arranged) (assembled : d.phase ≠ .building) {l : LocalVariables}
    (hl : l ∈ z.locals) :
    List.Forall₂ (fun g k => k < g.length) l.blocks
      (((σ.local? l.node).map (·.choices)).getD []) := by
  obtain ⟨choices, found, length, inside⟩ := exists_choices covers h arranged assembled hl
  rw [found]
  exact forall₂_blocks (h.locals l hl) length inside

theorem picks_picksOf (covers : σ.Covers d) (h : LaidOut d z start) (arranged : d.Arranged)
    (assembled : d.phase ≠ .building) :
    Picks z.blocks (picksOf z σ) :=
  forall₂_flatMap fun _ hl => forall₂_blocks_picks covers h arranged assembled hl

/-- The bit of the choice of a strategy is picked. -/
private theorem cell_mem_picked (covers : σ.Covers d) (h : LaidOut d z start)
    (arranged : d.Arranged) (assembled : d.phase ≠ .building) {l : LocalVariables}
    (hl : l ∈ z.locals) {q : List ℕ} (hq : inRange l.shape q = true) {s : ℕ} (hs : s < l.states)
    (choice : (((σ.local? l.node).map (·.choices)).getD [])[rank l.shape q]? = some s) :
    l.cell q s ∈ picked z.blocks (picksOf z σ) := by
  have isFor := h.locals l hl
  obtain ⟨front, back, split⟩ := List.append_of_mem hl
  have fronts : (front.flatMap (·.blocks)).length =
      (front.flatMap fun l => ((σ.local? l.node).map (·.choices)).getD []).length :=
    (forall₂_flatMap fun k hk => forall₂_blocks_picks covers h arranged assembled
      (split ▸ List.mem_append_left _ hk)).length_eq
  have block : z.blocks[(front.flatMap (·.blocks)).length + rank l.shape q]? =
      some ((List.range l.states).map (l.cell q)) := by
    have at_q := LocalVariables.blocks_getElem? isFor hq
    rw [blocks, split, List.flatMap_append, List.getElem?_append_right (Nat.le_add_right _ _),
      Nat.add_sub_cancel_left, List.flatMap_cons,
      List.getElem?_append_left (List.getElem?_eq_some_iff.mp at_q).1, at_q]
  refine (mem_picked_iff (h.blocks_flatten ▸ h.nodup_vars) _ block
    (List.mem_map_of_mem (List.mem_range.mpr hs))).mpr ⟨s, ?_, ?_⟩
  · rw [picksOf, split, List.flatMap_append, fronts,
      List.getElem?_append_right (Nat.le_add_right _ _), Nat.add_sub_cancel_left,
      List.flatMap_cons, List.getElem?_append_left (List.getElem?_eq_some_iff.mp choice).1, choice]
  · rw [List.getElem?_map, List.getElem?_range hs]
    rfl

/-- The bits that a strategy picks make the strategy. -/
theorem local?_strategyOf_bitsOf (covers : σ.Covers d) (h : LaidOut d z start)
    (arranged : d.Arranged) (assembled : d.phase ≠ .building) {i : ℕ} (hi : i ∈ d.decision) :
    (strategyOf z (bitsOf z.blocks (picksOf z σ))).local? i = σ.local? i := by
  obtain ⟨l, hl, rfl⟩ := h.exists_local hi
  have isFor := h.locals l hl
  have picks := picks_picksOf covers h arranged assembled
  have choice := isChoice_bitsOf h picks
  obtain ⟨choices, found, length, inside⟩ := exists_choices covers h arranged assembled hl
  have states (q : List ℕ) (hq : inRange l.shape q = true) :
      choices[rank l.shape q]? = some (chosen (bitsOf z.blocks (picksOf z σ)) l q) := by
    have hr : rank l.shape q < choices.length := length ▸ rank_lt_prod hq
    have own := inside _ (List.getElem_mem hr)
    have member := cell_mem_picked covers h arranged assembled hl hq own
      (by rw [found]; exact List.getElem?_eq_getElem hr)
    have bit := (choice.cell_eq h hl hq).2 _ own
    rw [bitsOf, if_pos member] at bit
    have same : choices[rank l.shape q] = chosen (bitsOf z.blocks (picksOf z σ)) l q := by
      by_contra differ
      rw [if_neg differ] at bit
      exact one_ne_zero bit
    rw [List.getElem?_eq_getElem hr, same]
  have listed : (Paths.ofStates l.shape).toList.map
      (chosen (bitsOf z.blocks (picksOf z σ)) l) = choices := by
    refine List.ext_getElem (by rw [List.length_map, Paths.length_toList_ofStates, length])
      fun k hk hk' => ?_
    rw [List.length_map] at hk
    have at_k := List.getElem?_eq_getElem hk
    have at_rank := states _ (Paths.mem_toList_ofStates.mp (List.getElem_mem hk))
    rw [Paths.rank_of_toList_ofStates_getElem? at_k, List.getElem?_eq_getElem hk',
      Option.some.injEq] at at_rank
    rw [List.getElem_map, at_rank]
  rw [h.local?_strategyOf arranged hl, found, localOf, listed]

end Covers

/-! ## Reading a strategy back -/

section ReadBack

variable [Scalar α]

private theorem active_eq_filter (s : Solution α) (c : ℕ → ℕ) (n : ℕ) :
    active s ((List.range n).map c) =
      (List.range n).filter fun k => decide (threshold ≤ s.value (c k)) := by
  unfold active
  induction n with
  | zero => rfl
  | succ n ih =>
    rw [List.range_succ, List.map_append, List.zipIdx_append, List.filterMap_append, ih,
      List.filter_append, List.length_map, List.length_range]
    by_cases hk : threshold ≤ s.value (c n) <;> simp [hk]

private theorem filter_range_eq_singleton {n k : ℕ} (hk : k < n) {keep : ℕ → Bool}
    (h : ∀ s < n, keep s = decide (s = k)) : (List.range n).filter keep = [k] := by
  rw [List.filter_congr (q := fun s => s == k) fun s hs => by
      rw [h s (List.mem_range.mp hs), beq_eq_decide], List.filter_beq,
    List.count_eq_one_of_mem List.nodup_range (List.mem_range.mpr hk)]
  rfl

/-- A solution in which the variables count as chosen that a choice makes one has the strategy of
the choice. -/
theorem strategy_eq_ok_of_threshold {a : ℕ → ℚ} (choice : IsChoice z a) (h : LaidOut d z start)
    (arranged : d.Arranged) (small : z.vars.length < Word.count64) {s : Solution α}
    (active : ∀ v ∈ z.vars, threshold ≤ s.value v ↔ a v = 1) :
    z.strategy s = .ok (strategyOf z a) := by
  have states {l : LocalVariables} (hl : l ∈ z.locals) {q : List ℕ}
      (hq : inRange l.shape q = true) : LocalVariables.choice l s q = .ok (chosen a l q) := by
    obtain ⟨inside, single⟩ := choice.cell_eq h hl hq
    have isFor := h.locals l hl
    have own : DecisionVariables.active s (l.group q) = [chosen a l q] := by
      rw [LocalVariables.group_eq isFor (h.states_pos arranged hl)
        ((h.length_le hl).trans_lt small) hq, active_eq_filter]
      refine filter_range_eq_singleton inside fun k hk => ?_
      rw [decide_eq_decide, active _ (List.mem_flatMap.mpr
        ⟨l, hl, LocalVariables.cell_mem isFor hq hk⟩), single k hk]
      split <;> simp_all
    rw [LocalVariables.choice, own]
  have locals : z.locals.mapM (fun l => LocalVariables.strategy l s) =
      .ok (z.locals.map (localOf a)) := by
    refine except_mapM_eq_ok_map fun l hl => ?_
    rw [LocalVariables.strategy, except_mapM_eq_ok_map (g := chosen a l) fun q hq =>
      states hl (Paths.mem_toList_ofStates.mp hq)]
    rfl
  rw [strategy, locals]
  rfl

end ReadBack

theorem threshold_eq : (threshold : Exact) = finite (1 / 2) := by
  change finite (0.5 : ℚ) = _
  norm_num

/-- A solution that holds an assignment has its strategy. -/
theorem strategy_eq_ok {d : Diagram Exact} {a : ℕ → ℚ} (choice : IsChoice z a)
    (h : LaidOut d z start) (arranged : d.Arranged) (small : z.vars.length < Word.count64)
    {s : Solution Exact} (values : ∀ v ∈ z.vars, s.value v = finite (a v)) :
    z.strategy s = .ok (strategyOf z a) := by
  refine strategy_eq_ok_of_threshold choice h arranged small fun v hv => ?_
  rw [values v hv, threshold_eq, finite_le]
  rcases choice.bits v hv with bit | bit <;> rw [bit] <;> norm_num

end DecisionVariables

end Influence
