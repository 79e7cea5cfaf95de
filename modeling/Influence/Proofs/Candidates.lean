import Influence.Number.Binary64
import Influence.Proofs.ExpectedUtility
import Influence.Proofs.CarriedValues

/-!
# Candidates of a compiled program

The one-hot groups that the search finds in a compiled program are the blocks of its decision
variables (`groups_eq`): the constraints of paths are no equations, and the cut names no binary
variable.  None is left over (`space_eq`), and the candidates are the picks of one bit per block,
which set the picked bits to one (`getD_assign`).  All that this needs of scalars is that one and
zero behave (`Scalar.HasUnits`).
-/

namespace Influence

open Extended Program Search

/-- What one-hot constraints rely on, and who reads them back: one is itself and not zero, a zero
that is added or taken away changes nothing, and one half is between the two. -/
class Scalar.HasUnits (α : Type) [Scalar α] : Prop where
  one_beq_one : ((1 : α) == 1) = true
  one_beq_zero : ((1 : α) == 0) = false
  zero_add_zero : (0 : α) + 0 = 0
  one_sub_zero : (1 : α) - 0 = 1
  half_le_one : (0.5 : α) ≤ 1
  not_half_le_zero : ¬ (0.5 : α) ≤ 0

instance : Scalar.HasUnits Exact where
  one_beq_one := one_beq_one
  one_beq_zero := one_beq_zero
  zero_add_zero := by rw [zero_eq_finite, finite_add, add_zero]
  one_sub_zero := by rw [zero_eq_finite, one_eq_finite, finite_sub, sub_zero]
  half_le_one := by decide +kernel
  not_half_le_zero := by decide +kernel

instance : Scalar.HasUnits Float where
  one_beq_one := by decide +kernel
  one_beq_zero := by decide +kernel
  zero_add_zero := by decide +kernel
  one_sub_zero := by decide +kernel
  half_le_one := by decide +kernel
  not_half_le_zero := by decide +kernel

/-! ## One-hot constraints -/

section OneHot

variable {α : Type} [Scalar α]

/-- A sum of variables has no constant. -/
theorem constant_sum_var [Scalar.HasUnits α] (g : List ℕ) :
    (LinearExpr.sum (g.map LinearExpr.var) : LinearExpr α).constant = 0 := by
  change (g.map LinearExpr.var).foldl (fun c (e : LinearExpr α) => c + e.constant) 0 = 0
  induction g with
  | nil => rfl
  | cons v g ih =>
    rw [List.map_cons, List.foldl_cons]
    change (g.map LinearExpr.var).foldl _ ((0 : α) + 0) = 0
    rw [Scalar.HasUnits.zero_add_zero, ih]

theorem terms_oneHot [Scalar.HasUnits α] {g : List ℕ} (distinct : g.Nodup) :
    (oneHot g : Constraint α).expr.terms = g.map fun v => (v, 1) := by
  have terms : (LinearExpr.sum (g.map LinearExpr.var) : LinearExpr α).terms =
      g.map fun v => (v, 1) := by
    change (g.map LinearExpr.var).flatMap (·.terms) = _
    rw [List.flatMap_map, List.map_eq_flatMap]
    rfl
  have names : ((g.map fun v => (v, (1 : α))).map (·.1)).Nodup := by
    rw [List.map_map]
    exact (List.map_id g).symm ▸ distinct
  have compact := LinearExpr.compact_of_nodup (e := LinearExpr.sum (g.map LinearExpr.var))
    (terms ▸ names) fun t ht => by
      rw [terms] at ht
      obtain ⟨v, -, rfl⟩ := List.mem_map.mp ht
      exact Scalar.HasUnits.one_beq_zero
  change (LinearExpr.compact (LinearExpr.sum (g.map LinearExpr.var))).terms = _
  rw [compact, terms]

theorem rhs_oneHot [Scalar.HasUnits α] (g : List ℕ) : (oneHot g : Constraint α).rhs = 1 := by
  change (1 : α) - (LinearExpr.sum (g.map LinearExpr.var) : LinearExpr α).constant = 1
  rw [constant_sum_var, Scalar.HasUnits.one_sub_zero]

variable {m : Program α}

/-- Different bits, and at least one, are the group of their one-hot constraint. -/
theorem groupOf?_oneHot [Scalar.HasUnits α] {g : List ℕ} (distinct : g.Nodup) (nonempty : g ≠ [])
    (bits : ∀ v ∈ g, m.isBinary v = true) : groupOf? m (oneHot g) = some g := by
  have members : (oneHot g : Constraint α).expr.terms.map (·.1) = g := by
    rw [terms_oneHot distinct, List.map_map]
    exact List.map_id g
  have unit : (oneHot g : Constraint α).expr.terms.all
      (fun t => t.2 == 1 && m.isBinary t.1) = true := by
    rw [terms_oneHot distinct, List.all_map, List.all_eq_true]
    intro v hv
    rw [Function.comp_apply, Bool.and_eq_true]
    exact ⟨Scalar.HasUnits.one_beq_one, bits v hv⟩
  have rhs : ((oneHot g : Constraint α).rhs == 1) = true := by
    rw [rhs_oneHot, Scalar.HasUnits.one_beq_one]
  have filled : (oneHot g : Constraint α).expr.isEmpty = false := by
    rw [LinearExpr.isEmpty, terms_oneHot distinct, List.isEmpty_eq_false_iff, ne_eq,
      List.map_eq_nil_iff]
    exact nonempty
  have sense : ((oneHot g : Constraint α).sense == .eq) = true := rfl
  have eager : (oneHot g : Constraint α).isLazy = false := rfl
  unfold groupOf?
  simp only [members, unit, rhs, filled, sense, eager, Bool.not_false, Bool.and_true, if_true]

theorem groupOf?_eq_none_of_sense {c : Constraint α} (hc : c.sense ≠ .eq) :
    groupOf? m c = none := by
  have sense : (c.sense == .eq) = false := by rwa [beq_eq_false_iff_ne]
  unfold groupOf?
  simp only [sense, Bool.and_false, Bool.false_and, Bool.false_eq_true, if_false]

/-- A constraint that names no bits makes no group. -/
theorem groupOf?_eq_none_of_not_isBinary {c : Constraint α}
    (hc : ∀ t ∈ c.expr.terms, m.isBinary t.1 = false) : groupOf? m c = none := by
  unfold groupOf?
  rw [LinearExpr.isEmpty]
  cases terms : c.expr.terms with
  | nil => simp
  | cons t ts =>
    have share := hc t (terms ▸ List.mem_cons_self)
    simp [share]

theorem sense_of_mem_pathConstraints {d : Diagram α} {z : DecisionVariables}
    {o : PathVariableOptions α} {p : Path} {v : ℕ} {c : Constraint α}
    (hc : c ∈ PathVariables.pathConstraints d z o p v) : c.sense ≠ .eq := by
  unfold PathVariables.pathConstraints at hc
  rcases List.mem_append.mp hc with hc | hc
  · obtain ⟨w, -, rfl⟩ := List.mem_map.mp hc
    exact nofun
  · split at hc
    · obtain rfl := List.mem_singleton.mp hc
      exact nofun
    · cases hc

end OneHot

/-! ## The space of candidates -/

namespace Encoding

section Space

variable {α : Type} [Scalar α] {d : Diagram α} {o : PathVariableOptions α} {isLazy : Bool}
  {z : DecisionVariables} {x : PathVariables α} {m : Program α}

theorem isContinuous_share (h : Encoding d o isLazy z x m) {t : Path × ℕ} (ht : t ∈ x.vars) :
    m.isContinuous t.2 = true := h.isContinuous_iff.mpr (h.paths.var_mem ht)

theorem not_isContinuous_bit (h : Encoding d o isLazy z x m) {v : ℕ} (hv : v ∈ z.vars) :
    ¬ m.isContinuous v = true := fun high =>
  absurd (h.mem_vars_lt hv) (not_lt.mpr (h.isContinuous_iff.mp high).1)

theorem mem_vars_of_mem_blocks (h : Encoding d o isLazy z x m) {g : List ℕ} (hg : g ∈ z.blocks)
    {v : ℕ} (hv : v ∈ g) : v ∈ z.vars := by
  rw [← h.decisions.blocks_flatten]
  exact List.mem_flatten_of_mem hg hv

theorem nodup_blocks_flatten (h : Encoding d o isLazy z x m) : z.blocks.flatten.Nodup := by
  rw [h.decisions.blocks_flatten]
  exact h.decisions.nodup_vars

theorem blocks_ne_nil (h : Encoding d o isLazy z x m) (arranged : d.Arranged) {g : List ℕ}
    (hg : g ∈ z.blocks) : g ≠ [] := by
  obtain ⟨l, hl, hg⟩ := List.mem_flatMap.mp hg
  obtain ⟨q, -, rfl⟩ := (LocalVariables.mem_blocks_iff (h.decisions.locals l hl)).mp hg
  have pos := h.decisions.states_pos arranged hl
  simp only [ne_eq, List.map_eq_nil_iff, List.range_eq_nil]
  exact pos.ne'

theorem picks_zeros (h : Encoding d o isLazy z x m) (arranged : d.Arranged) :
    DecisionVariables.Picks z.blocks (z.blocks.map fun _ => 0) :=
  List.forall₂_map_right_iff.mpr (List.forall₂_same.mpr fun _ hg =>
    List.length_pos_of_ne_nil (h.blocks_ne_nil arranged hg))

/-- The cut names path variables only, and makes no group. -/
theorem groupOf?_cutOf (h : Encoding d o isLazy z x m) {mass : LinearExpr α}
    (run : x.mass d = .ok mass) (late : Bool) : groupOf? m (x.cutOf mass late) = none := by
  refine groupOf?_eq_none_of_not_isBinary fun t ht => ?_
  obtain ⟨u, hu, same⟩ := List.mem_map.mp (mem_terms_normalized ht)
  obtain ⟨s, hs, path⟩ := List.mem_map.mp (PathVariables.mem_terms_of_mass run hu)
  rw [← same, ← path, Bool.eq_false_iff, ne_eq, h.isBinary_iff, not_lt]
  exact (h.paths.var_mem hs).1

/-- The groups that the search finds are the blocks of the decision variables. -/
theorem groups_eq [Scalar.HasUnits α] (h : Encoding d o isLazy z x m) (arranged : d.Arranged) :
    groups m = z.blocks := by
  obtain ⟨cuts, constraints, cuts_eq, -⟩ := h.constraints
  have taken : z.blocks.map (fun g => groupOf? m (oneHot g)) = z.blocks.map some := by
    refine List.map_congr_left fun g hg => groupOf?_oneHot
      ((List.nodup_flatten.mp h.nodup_blocks_flatten).1 g hg) (h.blocks_ne_nil arranged hg)
      fun v hv => ?_
    rw [h.isBinary_iff, ← h.mem_vars_iff]
    exact h.mem_vars_of_mem_blocks hg hv
  rw [groups_eq_foldl, constraints, List.append_assoc, List.map_append, List.map_map,
    List.foldl_append]
  change List.foldl _ (List.foldl _ _ (z.blocks.map fun g => groupOf? m (oneHot g))) _ = _
  rw [taken, foldl_withGroup_some (by rw [List.nil_append]; exact h.nodup_blocks_flatten),
    List.nil_append]
  refine foldl_withGroup_none (List.forall_mem_map.mpr (List.forall_mem_append.mpr ⟨?_, ?_⟩)) _
  · intro c hc
    obtain ⟨t, -, hc⟩ := List.mem_flatMap.mp hc
    exact groupOf?_eq_none_of_sense (sense_of_mem_pathConstraints hc)
  · intro c hc
    obtain ⟨mass, late, run, rfl⟩ := cuts_eq c hc
    exact h.groupOf?_cutOf run late

/-- No binary variable is left over by the groups. -/
theorem space_eq [Scalar.HasUnits α] (h : Encoding d o isLazy z x m) (arranged : d.Arranged) :
    space m = ⟨z.blocks, []⟩ := by
  have free : freeBinaries m z.blocks = [] := by
    refine List.filter_eq_nil_iff.mpr fun v _ keep => ?_
    rw [Bool.and_eq_true, h.isBinary_iff, ← h.mem_vars_iff, ← h.decisions.blocks_flatten] at keep
    obtain ⟨g, hg, hv⟩ := List.mem_flatten.mp keep.1
    have grouped : z.blocks.any (·.contains v) = true :=
      List.any_eq_true.mpr ⟨g, hg, List.contains_iff_mem.mpr hv⟩
    rw [grouped] at keep
    exact Bool.false_ne_true keep.2
  rw [space, h.groups_eq arranged, free]

/-- The candidates are the picks of one bit per block. -/
theorem mem_choices_iff {blocks : List (List ℕ)} {picks : List ℕ} :
    picks ∈ (Space.mk blocks []).choices ↔ DecisionVariables.Picks blocks picks := by
  rw [Space.choices, Paths.mem_toList_ofStates, inRange_iff_forall₂, Space.dims, List.map_nil,
    List.append_nil, DecisionVariables.Picks, List.forall₂_map_right_iff]
  exact ⟨fun h => h.flip, fun h => h.flip⟩

end Space

/-! ## The terms of the cut -/

variable {d : Diagram Exact} {o : PathVariableOptions Exact} {isLazy : Bool}
  {z : DecisionVariables} {x : PathVariables Exact} {m : Program Exact}

/-- The terms of the cut: every path variable with its scaled probability. -/
theorem terms_cutOf (h : Encoding d o isLazy z x m) (hn : d.Normalized) (late : Bool) :
    (x.cutOf (PathVariables.LaidOut.massOf d x) late).expr.terms =
      x.vars.map fun t => (t.2, finite (d.weight t.1 * x.scale.rational)) := by
  have terms : (PathVariables.LaidOut.massOf d x).terms =
      x.vars.map fun t => (t.2, finite (d.weight t.1 * x.scale.rational)) := by
    change (x.vars.map fun t => LinearExpr.term t.2 _).flatMap (·.terms) = _
    rw [List.flatMap_map, List.map_eq_flatMap]
    rfl
  have names : ((x.vars.map fun t =>
      (t.2, (finite (d.weight t.1 * x.scale.rational) : Exact))).map (·.1)).Nodup := by
    rw [List.map_map]
    change (x.vars.map (·.2)).Nodup
    rw [h.paths.vars]
    exact List.nodup_range'
  have compact := LinearExpr.compact_of_nodup (e := PathVariables.LaidOut.massOf d x)
    (terms ▸ names) fun u hu => by
      rw [terms] at hu
      obtain ⟨t, ht, rfl⟩ := List.mem_map.mp hu
      have pos := mul_pos (h.paths.weight_pos hn ht) h.paths.scale_eq.2
      rw [zero_eq_finite, finite_beq]
      exact decide_eq_false pos.ne'
  change (LinearExpr.compact (PathVariables.LaidOut.massOf d x)).terms = _
  rw [compact, terms]

end Encoding

/-! ## The bits of a candidate -/

open DecisionVariables (Picks mem_picked_iff)

section Bits

variable {α : Type} [Scalar α] {groups : List (List ℕ)}

/-- Where every bit is in a group, a candidate sets the members of the groups. -/
theorem map_fst_writes {picks : List ℕ} (hp : Picks groups picks) :
    ((Space.mk groups []).writes α picks).map (·.1) = groups.flatten := by
  rw [Space.writes, List.zip_nil_left, List.map_nil, List.append_nil, List.map_flatMap]
  simp only [List.map_map, Function.comp_def, List.zipIdx_map_fst]
  rw [List.flatMap_def, List.map_fst_zip hp.length_eq.le]

/-- It sets the bits that it picks to one and the others to zero. -/
theorem writes_eq_bits (distinct : groups.flatten.Nodup) (picks : List ℕ) :
    ∀ e ∈ (Space.mk groups []).writes α picks,
      e.2 = if e.1 ∈ DecisionVariables.picked groups picks then 1 else 0 := by
  intro e he
  rw [Space.writes, List.zip_nil_left, List.map_nil, List.append_nil, List.mem_flatMap] at he
  obtain ⟨⟨g, k⟩, member, he⟩ := he
  obtain ⟨⟨v, j⟩, at_j, rfl⟩ := List.mem_map.mp he
  obtain ⟨i, at_i⟩ := List.mem_iff_getElem?.mp member
  obtain ⟨group, pick⟩ := List.getElem?_zip_eq_some.mp at_i
  have hj : g[j]? = some v := List.mem_zipIdx_iff_getElem?.mp at_j
  have own : g.Nodup := (List.nodup_flatten.mp distinct).1 g (List.mem_of_getElem? group)
  have chosen : v ∈ DecisionVariables.picked groups picks ↔ j = k := by
    rw [mem_picked_iff distinct picks group (List.mem_of_getElem? hj)]
    constructor
    · rintro ⟨k', pick', hk⟩
      obtain rfl := Option.some.inj (pick.symm.trans pick')
      exact (List.getElem?_inj (List.getElem?_eq_some_iff.mp hj).1 own).mp (hj.trans hk.symm)
    · rintro rfl
      exact ⟨j, pick, hj⟩
  exact if_congr chosen.symm rfl rfl

/-- A candidate sets the bits that it picks to one, and the other bits of the groups to
zero. -/
theorem getD_assign (distinct : groups.flatten.Nodup) {picks : List ℕ} (hp : Picks groups picks)
    {values : Array α} (inside : ∀ v ∈ groups.flatten, v < values.size) (w : ℕ) :
    ((Space.mk groups []).assign picks values).getD w 0 =
      if w ∈ groups.flatten then if w ∈ DecisionVariables.picked groups picks then 1 else 0
      else values.getD w 0 := by
  have members := map_fst_writes (α := α) hp
  rw [assign_eq_foldl, getD_foldl_set
    (t := fun v => if v ∈ DecisionVariables.picked groups picks then (1 : α) else 0)
    (writes_eq_bits distinct picks) (fun e he => ?_), members]
  exact inside e.1 (members ▸ List.mem_map_of_mem he)

end Bits

end Influence
