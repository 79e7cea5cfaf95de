import Influence.Proofs.Candidates

/-!
# Completing a candidate

Once the bits are set, what a path variable may be depends on nothing but the bits: it is held
down to zero unless its path follows the strategy of the bits, and the linking lower bound holds
it up to one if it does (`Leeway`).  A cut without other path variables confines it further
(`Room`): a path variable that carries the cut alone has no room unless its path follows and is
certain (`not_room`).  Of what is left the preference picks the end (`picked_heldShare`,
`picked_settledShare`).
-/

namespace Influence

open Extended Program Search

namespace Encoding

variable {d : Diagram Exact} {o : PathVariableOptions Exact} {isLazy : Bool}
  {z : DecisionVariables} {x : PathVariables Exact} {m : Program Exact}

/-! ## Constraints of one path variable -/

private theorem normalized_linked_spec {v : ℕ} {vs : List ℕ} (fresh : v ∉ vs) (s : Sense) (r : ℚ) :
    (normalized (PathVariables.linked v vs) s (finite r) false : Constraint Exact).IsNormal ∧
      (v, 1) ∈ (normalized (PathVariables.linked v vs) s (finite r) false :
        Constraint Exact).expr.terms ∧
      ∀ u ∈ (normalized (PathVariables.linked v vs) s (finite r) false :
        Constraint Exact).expr.terms, u.1 = v ∨ u.1 ∈ vs := by
  obtain ⟨isFinite, single, named⟩ := PathVariables.linked_spec v vs (Pi.single v 1)
  obtain ⟨-, zero, -⟩ := PathVariables.linked_spec v vs 0
  refine ⟨isNormal_normalized isFinite s r false, ?_, fun u hu => ?_⟩
  · refine LinearExpr.mem_terms_compact isFinite one_ne_zero ?_
    have others : (vs.map (Pi.single v (1 : ℚ))).sum = 0 := by
      refine List.sum_eq_zero fun y hy => ?_
      obtain ⟨w, hw, rfl⟩ := List.mem_map.mp hy
      exact Pi.single_eq_of_ne (fun same : w = v => fresh (same ▸ hw)) 1
    have nothing : (vs.map (0 : ℕ → ℚ)).sum = 0 :=
      List.sum_eq_zero fun y hy => by
        obtain ⟨w, -, rfl⟩ := List.mem_map.mp hy
        rfl
    rw [single, zero, others, nothing, Pi.single_eq_same]
    simp
  · obtain ⟨w, hw, same⟩ := List.mem_map.mp (mem_terms_normalized hu)
    exact same ▸ named w hw

theorem pathConstraint_spec (h : Encoding d o isLazy z x m) (hn : d.Normalized)
    (small : z.vars.length < Word.count64) {t : Path × ℕ} (ht : t ∈ x.vars)
    {c : Constraint Exact} (hc : c ∈ PathVariables.pathConstraints d z o t.1 t.2) :
    c.IsNormal ∧ (t.2, 1) ∈ c.expr.terms ∧ ∀ u ∈ c.expr.terms, u.1 = t.2 ∨ u.1 ∈ z.vars := by
  have selected := h.selectedAt_subset hn small (h.paths.inRange ht)
  have fresh : t.2 ∉ z.vars := fun mem =>
    absurd (h.mem_vars_lt mem) (not_lt.mpr (h.paths.var_mem ht).1)
  have linked (vs : List ℕ) (hvs : ∀ v ∈ vs, v ∈ z.vars) (s : Sense) (r : ℚ)
      (hc : c = normalized (PathVariables.linked t.2 vs) s (finite r) false) :
      c.IsNormal ∧ (t.2, 1) ∈ c.expr.terms ∧ ∀ u ∈ c.expr.terms, u.1 = t.2 ∨ u.1 ∈ z.vars := by
    obtain ⟨normal, own, named⟩ := normalized_linked_spec (fun mem => fresh (hvs _ mem)) s r
    exact hc ▸ ⟨normal, own, fun u hu => (named u hu).imp_right (hvs _)⟩
  unfold PathVariables.pathConstraints at hc
  rcases List.mem_append.mp hc with hc | hc
  · obtain ⟨v, hv, rfl⟩ := List.mem_map.mp hc
    exact linked [v] (by simpa using selected v hv) .le 0 rfl
  · split at hc
    · rw [List.mem_singleton, ofNat_eq_finite, one_eq_finite, finite_sub] at hc
      exact linked _ selected .ge _ hc
    · cases hc

/-- A constraint of a path variable confines that variable. -/
theorem single?_pathConstraint (h : Encoding d o isLazy z x m) (hn : d.Normalized)
    (small : z.vars.length < Word.count64) {t : Path × ℕ} (ht : t ∈ x.vars)
    {c : Constraint Exact} (hc : c ∈ PathVariables.pathConstraints d z o t.1 t.2) :
    single? m c = some (t.2, 1) := by
  obtain ⟨normal, own, named⟩ := h.pathConstraint_spec hn small ht hc
  have only : c.expr.terms.filter (fun u => m.isContinuous u.1) = [(t.2, 1)] := by
    refine LinearExpr.filter_eq_singleton normal.names own fun u hu => ⟨fun kept => ?_, ?_⟩
    · exact (named u hu).resolve_right fun bit => h.not_isContinuous_bit bit kept
    · rintro same
      rw [same]
      exact h.isContinuous_share ht
  unfold single?
  rw [show c.expr.terms.filter (fun (v, _) => m.isContinuous v) = [(t.2, 1)] from only]

theorem single?_oneHot (h : Encoding d o isLazy z x m) {g : List ℕ} (hg : g ∈ z.blocks) :
    single? m (oneHot g) = none := by
  have distinct := (List.nodup_flatten.mp h.nodup_blocks_flatten).1 g hg
  have nothing : (oneHot g : Constraint Exact).expr.terms.filter
      (fun u => m.isContinuous u.1) = [] := by
    rw [terms_oneHot distinct, List.filter_eq_nil_iff]
    intro u hu
    obtain ⟨v, hv, rfl⟩ := List.mem_map.mp hu
    exact h.not_isContinuous_bit (h.mem_vars_of_mem_blocks hg hv)
  unfold single?
  rw [show (oneHot g : Constraint Exact).expr.terms.filter (fun (v, _) => m.isContinuous v) = []
    from nothing]

/-- The cut confines a path variable only where it is the only one. -/
theorem single?_cut (h : Encoding d o isLazy z x m) (hn : d.Normalized) (late : Bool)
    {e : ℕ × Exact} :
    single? m (x.cutOf (PathVariables.LaidOut.massOf d x) late) = some e ↔
      ∃ t, x.vars = [t] ∧ e = (t.2, finite (d.weight t.1 * x.scale.rational)) := by
  have all : (x.cutOf (PathVariables.LaidOut.massOf d x) late).expr.terms.filter
      (fun u => m.isContinuous u.1) =
        x.vars.map fun t => (t.2, finite (d.weight t.1 * x.scale.rational)) := by
    rw [h.terms_cutOf hn, List.filter_eq_self]
    intro u hu
    obtain ⟨t, ht, rfl⟩ := List.mem_map.mp hu
    exact h.isContinuous_share ht
  unfold single?
  rw [show (x.cutOf (PathVariables.LaidOut.massOf d x) late).expr.terms.filter
    (fun (v, _) => m.isContinuous v) = _ from all]
  rcases x.vars with _ | ⟨t, _ | ⟨u, ts⟩⟩ <;> simp [eq_comm]

theorem eq_of_var_eq (h : Encoding d o isLazy z x m) {t u : Path × ℕ} (ht : t ∈ x.vars)
    (hu : u ∈ x.vars) (same : t.2 = u.2) : t = u := by
  have distinct : (x.vars.map (·.2)).Nodup := by
    rw [h.paths.vars]
    exact List.nodup_range'
  exact List.inj_on_of_nodup_map distinct ht hu same

theorem exists_share (h : Encoding d o isLazy z x m) {v : ℕ} (hv : m.isContinuous v = true) :
    ∃ t ∈ x.vars, t.2 = v := by
  rw [h.isContinuous_iff] at hv
  exact List.mem_map.mp (h.paths.vars ▸ List.mem_range'_1.mpr hv)

/-- What confines a path variable: its own constraints, and a cut in which no other path
variable occurs. -/
theorem mem_confining_iff (h : Encoding d o isLazy z x m) (hn : d.Normalized)
    (small : z.vars.length < Word.count64) {t : Path × ℕ} (ht : t ∈ x.vars)
    {e : Constraint Exact × Exact} :
    e ∈ confining m t.2 ↔
      (e.1 ∈ PathVariables.pathConstraints d z o t.1 t.2 ∧ e.2 = 1) ∨
        (x.vars = [t] ∧ e.2 = finite (d.weight t.1 * x.scale.rational) ∧
          (o.probabilityCut = true ∨ isLazy = true) ∧
          ∃ late, e.1 ∈ m.constraints ∧ e.1 = x.cutOf (PathVariables.LaidOut.massOf d x) late) := by
  obtain ⟨cuts, constraints, cuts_eq, cuts_ne⟩ := h.constraints
  have confines : e ∈ confining m t.2 ↔
      e.1 ∈ m.constraints.toList ∧ single? m e.1 = some (t.2, e.2) := by
    unfold confining
    rw [List.mem_filterMap]
    constructor
    · rintro ⟨c, hc, found⟩
      split at found
      case h_1 w k single =>
        split at found
        case isTrue same =>
          obtain rfl := Option.some.inj found
          exact ⟨hc, same ▸ single⟩
        case isFalse => cases found
      case h_2 => cases found
    · rintro ⟨hc, single⟩
      refine ⟨e.1, hc, ?_⟩
      rw [single]
      exact if_pos rfl
  rw [confines]
  constructor
  · rintro ⟨hc, single⟩
    have stored := Array.mem_toList_iff.mp hc
    rw [constraints] at hc
    rcases List.mem_append.mp hc with hc | hc
    · rcases List.mem_append.mp hc with hc | hc
      · obtain ⟨g, hg, same⟩ := List.mem_map.mp hc
        rw [← same, h.single?_oneHot hg] at single
        cases single
      · obtain ⟨u, hu, hc⟩ := List.mem_flatMap.mp hc
        rw [h.single?_pathConstraint hn small hu hc, Option.some.injEq, Prod.mk.injEq] at single
        obtain rfl := h.eq_of_var_eq hu ht single.1
        exact .inl ⟨hc, single.2.symm⟩
    · obtain ⟨mass, late, run, same⟩ := cuts_eq e.1 hc
      obtain rfl := Except.ok.inj (run.symm.trans (h.paths.mass_eq_ok hn))
      rw [same, h.single?_cut hn] at single
      obtain ⟨u, alone, eq⟩ := single
      rw [Prod.mk.injEq] at eq
      obtain rfl := h.eq_of_var_eq ht (alone ▸ List.mem_singleton_self u) eq.1
      exact .inr ⟨alone, eq.2, cuts_ne.mpr (List.ne_nil_of_mem hc), late, stored, same⟩
  · rintro (⟨hc, one⟩ | ⟨alone, factor, -, late, stored, same⟩)
    · refine ⟨?_, one ▸ h.single?_pathConstraint hn small ht hc⟩
      rw [constraints]
      exact List.mem_append_left _ (List.mem_append_right _ (List.mem_flatMap.mpr ⟨t, ht, hc⟩))
    · refine ⟨Array.mem_toList_iff.mpr stored, ?_⟩
      rw [same, h.single?_cut hn, factor]
      exact ⟨t, alone, rfl⟩

theorem exists_cut (h : Encoding d o isLazy z x m) (hn : d.Normalized)
    (cut : o.probabilityCut = true ∨ isLazy = true) :
    ∃ late, x.cutOf (PathVariables.LaidOut.massOf d x) late ∈ m.constraints := by
  obtain ⟨cuts, constraints, cuts_eq, cuts_ne⟩ := h.constraints
  obtain ⟨c, hc⟩ := List.exists_mem_of_ne_nil _ (cuts_ne.mp cut)
  obtain ⟨mass, late, run, rfl⟩ := cuts_eq c hc
  obtain rfl := Except.ok.inj (run.symm.trans (h.paths.mass_eq_ok hn))
  refine ⟨late, Array.mem_toList_iff.mp ?_⟩
  rw [constraints]
  exact List.mem_append_right _ hc

end Encoding

/-! ## The room of a path variable -/

/-- What the constraints of a path leave to its variable once the bits are set. -/
structure Leeway (d : Diagram Exact) (o : PathVariableOptions Exact) (z : DecisionVariables)
    (a : ℕ → ℚ) (t : Path × ℕ) (r : ℚ) : Prop where
  nonneg : 0 ≤ r
  le_one : r ≤ 1
  linked : ∀ v ∈ PathVariables.selectedAt z t.1 d.decision, r ≤ a v
  bound : (PathVariables.bindsBelow d o && !d.decision.isEmpty) = true →
    ((PathVariables.selectedAt z t.1 d.decision).map a).sum + 1 - d.decision.length ≤ r

/-- What is left to the variable of a path once the bits are set, where the cut is an equation. -/
structure Room (d : Diagram Exact) (o : PathVariableOptions Exact) (z : DecisionVariables)
    (x : PathVariables Exact) (a : ℕ → ℚ) (t : Path × ℕ) (r : ℚ) : Prop
    extends Leeway d o z a t r where
  alone : x.vars = [t] → d.weight t.1 * r = 1

section Room

variable {d : Diagram Exact} {o : PathVariableOptions Exact} {isLazy : Bool}
  {z : DecisionVariables} {x : PathVariables Exact} {m : Program Exact} {a : ℕ → ℚ}

/-- Once the bits are set, an interval is left to a path variable: the shares at which all that
confines it holds. -/
theorem interval_confined (h : Encoding d o isLazy z x m) (hn : d.Normalized)
    (small : z.vars.length < Word.count64) {values : Array Exact}
    (size : values.size = z.vars.length + x.vars.length)
    (bits : ∀ v ∈ z.vars, values.getD v 0 = finite (a v)) {t : Path × ℕ} (ht : t ∈ x.vars) :
    Interval ((confining m t.2).foldl (fun b e => confine values t.2 b e.1 e.2) (0, 1))
      fun r => (0 ≤ r ∧ r ≤ 1) ∧ ∀ e ∈ confining m t.2,
        e.1.isSatisfied (values.setIfInBounds t.2 (finite r)) 0 = true := by
  have inside : t.2 < values.size := size ▸ (h.paths.var_mem ht).2
  have unit : Interval (0, 1) fun r => 0 ≤ r ∧ r ≤ 1 := ⟨0, 1, rfl, fun r => Iff.rfl⟩
  refine interval_foldl_confine unit inside (a := a) fun e he => ?_
  rcases (h.mem_confining_iff hn small ht).mp he with ⟨hc, one⟩ | ⟨alone, factor, -, late, -, same⟩
  · obtain ⟨normal, own, named⟩ := h.pathConstraint_spec hn small ht hc
    exact ⟨normal, one ▸ own, fun u hu other => bits _ ((named u hu).resolve_left other)⟩
  · have terms := h.terms_cutOf hn late
    rw [alone, List.map_singleton, ← same] at terms
    refine ⟨?_, ?_, fun u hu other => ?_⟩
    · rw [same, PathVariables.cutOf, h.paths.scale_eq.1]
      exact isNormal_normalized (PathVariables.LaidOut.massOf_spec d x a).1 _ _ _
    · rw [terms, factor]
      exact List.mem_singleton_self _
    · rw [terms, List.mem_singleton] at hu
      exact absurd (congrArg Prod.fst hu) other

/-- What the constraints of a path say of its variable once the bits are set. -/
theorem isSatisfied_pathConstraints_set_iff (h : Encoding d o isLazy z x m) (arranged : d.Arranged)
    (small : z.vars.length < Word.count64) {values : Array Exact}
    (size : values.size = z.vars.length + x.vars.length)
    (bits : ∀ v ∈ z.vars, values.getD v 0 = finite (a v)) {t : Path × ℕ} (ht : t ∈ x.vars)
    (r : ℚ) :
    (∀ c ∈ PathVariables.pathConstraints d z o t.1 t.2,
        c.isSatisfied (values.setIfInBounds t.2 (finite r)) 0 = true) ↔
      (∀ v ∈ PathVariables.selectedAt z t.1 d.decision, r ≤ a v) ∧
        ((PathVariables.bindsBelow d o && !d.decision.isEmpty) = true →
          ((PathVariables.selectedAt z t.1 d.decision).map a).sum + 1 - d.decision.length ≤ r) := by
  have inside : t.2 < values.size := size ▸ (h.paths.var_mem ht).2
  set b := Function.update a t.2 r with hb
  have own : (values.setIfInBounds t.2 (finite r)).getD t.2 0 = finite (b t.2) := by
    rw [getD_set_self inside, hb, Function.update_self]
  have others : ∀ v ∈ PathVariables.selectedAt z t.1 d.decision,
      (values.setIfInBounds t.2 (finite r)).getD v 0 = finite (b v) ∧ b v = a v := by
    intro v hv
    have bit := h.selectedAt_subset arranged small (h.paths.inRange ht) v hv
    have differ : v ≠ t.2 := fun same =>
      absurd (h.mem_vars_lt bit) (not_lt.mpr (same ▸ (h.paths.var_mem ht).1))
    rw [getD_set_of_ne differ, hb, Function.update_of_ne differ]
    exact ⟨bits v bit, rfl⟩
  have paths := isSatisfied_pathConstraints_iff 0 (d := d) (o := o) own
    fun v hv => (others v hv).1
  rw [hb, Function.update_self, ← hb, List.map_congr_left fun v hv => (others v hv).2] at paths
  refine paths.trans (and_congr (forall₂_congr fun v hv => ?_) (imp_congr_right fun _ => ?_))
  · rw [(others v hv).2, sub_nonpos]
  · constructor <;> intro low <;> linarith

/-- What a cut with one path variable only says of this variable. -/
theorem isSatisfied_cut_set_iff (h : Encoding d o isLazy z x m) {values : Array Exact}
    (size : values.size = z.vars.length + x.vars.length) {t : Path × ℕ} (alone : x.vars = [t])
    (late : Bool) (r : ℚ) :
    (x.cutOf (PathVariables.LaidOut.massOf d x) late).isSatisfied
        (values.setIfInBounds t.2 (finite r)) 0 = true ↔
      x.cutSense.Passes 0 (d.weight t.1 * x.scale.rational * r - x.scale.rational) := by
  have ht : t ∈ x.vars := alone ▸ List.mem_singleton_self t
  have inside : t.2 < values.size := size ▸ (h.paths.var_mem ht).2
  obtain ⟨isFinite, value, named⟩ := PathVariables.LaidOut.massOf_spec d x fun _ => r
  rw [PathVariables.cutOf, h.paths.scale_eq.1, zero_eq_finite,
    isSatisfied_normalized_iff isFinite (a := fun _ => r) fun u hu => ?_, value, alone,
    List.map_singleton, List.sum_singleton, rational_finite]
  have only := named u hu
  rw [alone, List.map_singleton, List.mem_singleton] at only
  rw [only, getD_set_self inside]

/-- The constraints of a path leave its variable the leeway. -/
theorem leeway_iff (h : Encoding d o isLazy z x m) (arranged : d.Arranged)
    (small : z.vars.length < Word.count64) {values : Array Exact}
    (size : values.size = z.vars.length + x.vars.length)
    (bits : ∀ v ∈ z.vars, values.getD v 0 = finite (a v)) {t : Path × ℕ} (ht : t ∈ x.vars)
    (r : ℚ) : Leeway d o z a t r ↔ (0 ≤ r ∧ r ≤ 1) ∧
      ∀ c ∈ PathVariables.pathConstraints d z o t.1 t.2,
        c.isSatisfied (values.setIfInBounds t.2 (finite r)) 0 = true := by
  rw [isSatisfied_pathConstraints_set_iff h arranged small size bits ht r]
  constructor
  · intro room
    exact ⟨⟨room.nonneg, room.le_one⟩, room.linked, room.bound⟩
  · rintro ⟨⟨nonneg, le_one⟩, linked, bound⟩
    exact ⟨nonneg, le_one, linked, bound⟩

theorem interval_room (h : Encoding d o isLazy z x m) (hn : d.Normalized)
    (cut : o.probabilityCut = true ∨ isLazy = true) (free : ∀ e ∈ o.fixed.entries, e.1 ∉ d.chance)
    (small : z.vars.length < Word.count64) {values : Array Exact}
    (size : values.size = z.vars.length + x.vars.length)
    (bits : ∀ v ∈ z.vars, values.getD v 0 = finite (a v)) {t : Path × ℕ} (ht : t ∈ x.vars) :
    Interval ((confining m t.2).foldl (fun b e => confine values t.2 b e.1 e.2) (0, 1))
      (Room d o z x a t) := by
  refine (interval_confined h hn small size bits ht).congr fun r => ?_
  have leeway := leeway_iff h hn small size bits ht r
  have cuts (alone : x.vars = [t]) (late : Bool) :
      (x.cutOf (PathVariables.LaidOut.massOf d x) late).isSatisfied
        (values.setIfInBounds t.2 (finite r)) 0 = true ↔ d.weight t.1 * r = 1 := by
    rw [isSatisfied_cut_set_iff h size alone late r, h.cutSense_eq hn free, Sense.Passes,
      abs_nonpos_iff, sub_eq_zero, mul_right_comm, mul_eq_right₀ h.paths.scale_eq.2.ne']
  constructor
  · rintro ⟨within, satisfied⟩
    refine ⟨leeway.mpr ⟨within, fun c hc => satisfied (c, 1)
      ((h.mem_confining_iff hn small ht).mpr (.inl ⟨hc, rfl⟩))⟩, fun alone => ?_⟩
    obtain ⟨late, stored⟩ := h.exists_cut hn cut
    exact (cuts alone late).mp (satisfied (_, _)
      ((h.mem_confining_iff hn small ht).mpr (.inr ⟨alone, rfl, cut, late, stored, rfl⟩)))
  · rintro ⟨room, alone⟩
    obtain ⟨within, paths⟩ := leeway.mp room
    refine ⟨within, fun e he => ?_⟩
    rcases (h.mem_confining_iff hn small ht).mp he with ⟨hc, -⟩ | ⟨single, -, -, late, -, same⟩
    · exact paths e.1 hc
    · rw [same]
      exact (cuts single late).mpr (alone single)

/-- Where the cut is no equation, it leaves a path variable alone. -/
theorem interval_leeway (h : Encoding d o isLazy z x m) (hn : d.Normalized)
    (loose : o.probabilityCut = true ∨ isLazy = true → x.cutSense = .le)
    (small : z.vars.length < Word.count64) {values : Array Exact}
    (size : values.size = z.vars.length + x.vars.length)
    (bits : ∀ v ∈ z.vars, values.getD v 0 = finite (a v)) {t : Path × ℕ} (ht : t ∈ x.vars) :
    Interval ((confining m t.2).foldl (fun b e => confine values t.2 b e.1 e.2) (0, 1))
      (Leeway d o z a t) := by
  refine (interval_confined h hn small size bits ht).congr fun r => ?_
  rw [leeway_iff h hn small size bits ht r]
  constructor
  · rintro ⟨within, satisfied⟩
    exact ⟨within, fun c hc => satisfied (c, 1)
      ((h.mem_confining_iff hn small ht).mpr (.inl ⟨hc, rfl⟩))⟩
  · rintro ⟨within, paths⟩
    refine ⟨within, fun e he => ?_⟩
    rcases (h.mem_confining_iff hn small ht).mp he with ⟨hc, -⟩ | ⟨single, -, cut, late, -, same⟩
    · exact paths e.1 hc
    · -- The mass of one path is at most one.
      have mass : d.weight t.1 * r ≤ 1 :=
        mul_le_one₀ (hn.weight_le_one (h.paths.inRange ht)) within.1 within.2
      rw [same, isSatisfied_cut_set_iff h size single late r, loose cut, Sense.Passes,
        mul_right_comm, sub_nonpos]
      exact mul_le_of_le_one_left h.paths.scale_eq.2.le mass

/-! ## What a path variable settles to -/

open DecisionVariables (strategyOf IsChoice)

/-- The variable of a path goes up to one where its path follows: it is bound from below, the
objective does not lose by it, or it has to carry the cut alone. -/
def Raised (d : Diagram Exact) (o : PathVariableOptions Exact) (x : PathVariables Exact) (sign : ℚ)
    (p : Path) : Prop :=
  (PathVariables.bindsBelow d o && !d.decision.isEmpty) = true ∨
    0 ≤ sign * (d.utility p + d.shift.rational) ∨ x.vars.length = 1

instance (sign : ℚ) : DecidablePred (Raised d o x sign) :=
  fun p => inferInstanceAs (Decidable (_ ∨ 0 ≤ sign * (d.utility p + d.shift.rational) ∨ _))

/-- What the variable of a path settles to under a strategy. -/
def settledShare (d : Diagram Exact) (o : PathVariableOptions Exact) (x : PathVariables Exact)
    (sign : ℚ) (σ : Strategy) (p : Path) : ℚ :=
  if σ.Follows d p ∧ Raised d o x sign p then 1 else 0

/-- The preference of the search for the variable of a path. -/
def preferred (d : Diagram Exact) (x : PathVariables Exact) (sign : ℚ) (p : Path) : ℚ :=
  sign * ExpectedUtility.coefficient d x p

theorem preferred_neg_iff (h : Encoding d o isLazy z x m) (hn : d.Normalized) {t : Path × ℕ}
    (ht : t ∈ x.vars) (sign : ℚ) :
    preferred d x sign t.1 < 0 ↔ sign * (d.utility t.1 + d.shift.rational) < 0 := by
  have pos := mul_pos (h.paths.weight_pos hn ht) h.paths.scale_eq.2
  have factor : preferred d x sign t.1 =
      d.weight t.1 * x.scale.rational * (sign * (d.utility t.1 + d.shift.rational)) := by
    rw [preferred, ExpectedUtility.coefficient]
    ring
  rw [factor, ← not_le, ← not_le, mul_nonneg_iff_of_pos_left pos]

/-- The variable of a path goes up to one where its path follows and the cut is no equation: it is
bound from below, or the objective does not lose by it. -/
def Held (d : Diagram Exact) (o : PathVariableOptions Exact) (sign : ℚ) (p : Path) : Prop :=
  (PathVariables.bindsBelow d o && !d.decision.isEmpty) = true ∨
    0 ≤ sign * (d.utility p + d.shift.rational)

instance (sign : ℚ) : DecidablePred (Held d o sign) :=
  fun p => inferInstanceAs (Decidable (_ ∨ 0 ≤ sign * (d.utility p + d.shift.rational)))

/-- What the variable of a path settles to under a strategy where the cut is no equation. -/
def heldShare (d : Diagram Exact) (o : PathVariableOptions Exact) (sign : ℚ) (σ : Strategy)
    (p : Path) : ℚ :=
  if σ.Follows d p ∧ Held d o sign p then 1 else 0

/-- There is leeway for one where the path follows. -/
theorem leeway_one (h : Encoding d o isLazy z x m) (hn : d.Normalized)
    (small : z.vars.length < Word.count64) (choice : IsChoice z a) {t : Path × ℕ} (ht : t ∈ x.vars)
    (follows : (strategyOf z a).Follows d t.1) : Leeway d o z a t 1 ∧
      ((PathVariables.selectedAt z t.1 d.decision).map a).sum + 1 - d.decision.length = 1 := by
  have ones := (choice.follows_strategyOf_iff h.decisions hn.arranged small
    (h.paths.inRange ht)).mp follows
  have count : (d.decision.length : ℚ) = (PathVariables.selectedAt z t.1 d.decision).length := by
    simpa using congrArg List.length (h.paths.selects t ht)
  have sum : ((PathVariables.selectedAt z t.1 d.decision).map a).sum + 1 - d.decision.length =
      1 := by
    rw [List.map_congr_left (g := fun _ => (1 : ℚ)) ones, count]
    simp
  exact ⟨⟨zero_le_one, le_rfl, fun v hv => (ones v hv).ge, fun _ => sum.le⟩, sum⟩

theorem picked_heldShare (h : Encoding d o isLazy z x m) (hn : d.Normalized)
    (small : z.vars.length < Word.count64) (choice : IsChoice z a) {t : Path × ℕ} (ht : t ∈ x.vars)
    (sign : ℚ) : Picked (preferred d x sign t.1) (Leeway d o z a t)
      (heldShare d o sign (strategyOf z a) t.1) := by
  have hp := h.paths.inRange ht
  have follows_iff := choice.follows_strategyOf_iff h.decisions hn.arranged small hp
  have bits : ∀ v ∈ PathVariables.selectedAt z t.1 d.decision, a v = 0 ∨ a v = 1 := fun v hv =>
    choice.bits v (h.selectedAt_subset hn small hp v hv)
  have count : (d.decision.length : ℚ) = (PathVariables.selectedAt z t.1 d.decision).length := by
    simpa using congrArg List.length (h.paths.selects t ht)
  unfold heldShare
  by_cases follows : (strategyOf z a).Follows d t.1
  · obtain ⟨room, sum⟩ := leeway_one h hn small choice ht follows (o := o)
    by_cases held : Held d o sign t.1
    · rw [if_pos ⟨follows, held⟩]
      refine ⟨room, fun r left => ?_⟩
      split
      case isTrue neg =>
        rcases held with bound | gains
        · rw [← sum]
          exact left.bound bound
        · exact absurd ((preferred_neg_iff h hn ht sign).mp neg) (not_lt.mpr gains)
      case isFalse => exact left.le_one
    · rw [if_neg fun both => held both.2]
      simp only [Held, not_or, not_le] at held
      obtain ⟨unbound, loses⟩ := held
      refine ⟨⟨le_rfl, zero_le_one, fun v hv => zero_le_one.trans (room.linked v hv),
        fun bound => absurd bound unbound⟩, fun r left => ?_⟩
      rw [if_pos ((preferred_neg_iff h hn ht sign).mpr loses)]
      exact left.nonneg
  · rw [if_neg fun both => follows both.1]
    have off : ∃ v ∈ PathVariables.selectedAt z t.1 d.decision, a v = 0 := by
      rw [follows_iff] at follows
      simp only [not_forall, exists_prop] at follows
      obtain ⟨v, hv, off⟩ := follows
      exact ⟨v, hv, (bits v hv).resolve_right off⟩
    obtain ⟨v, hv, zero⟩ := off
    refine ⟨⟨le_rfl, zero_le_one, fun w hw => ?_, fun _ => ?_⟩, fun r left => ?_⟩
    · rcases bits w hw with h | h <;> rw [h]
      exact zero_le_one
    · have := sum_bits_le bits hv zero
      rw [← count] at this
      linarith
    · have low := left.linked v hv
      rw [zero] at low
      split
      · exact left.nonneg
      · exact low

theorem picked_settledShare (h : Encoding d o isLazy z x m) (hn : d.Normalized)
    (small : z.vars.length < Word.count64) (choice : IsChoice z a) {t : Path × ℕ} (ht : t ∈ x.vars)
    (alone : x.vars = [t] → (strategyOf z a).Follows d t.1 ∧ d.weight t.1 = 1) (sign : ℚ) :
    Picked (preferred d x sign t.1) (Room d o z x a t)
      (settledShare d o x sign (strategyOf z a) t.1) := by
  by_cases only : x.vars = [t]
  · obtain ⟨follows, certain⟩ := alone only
    have raised : Raised d o x sign t.1 := .inr (.inr (by rw [only]; rfl))
    rw [settledShare, if_pos ⟨follows, raised⟩]
    refine ⟨⟨(leeway_one h hn small choice ht follows).1, fun _ => ?_⟩, fun r room => ?_⟩
    · rw [certain, mul_one]
    · have one := room.alone only
      rw [certain, one_mul] at one
      rw [one, ite_self]
  · have several : x.vars.length ≠ 1 := by
      intro single
      obtain ⟨u, hu⟩ := List.length_eq_one_iff.mp single
      rw [hu] at ht only
      exact only (by rw [List.mem_singleton.mp ht])
    have raised : Raised d o x sign t.1 ↔ Held d o sign t.1 := by
      rw [Raised, or_iff_left several]
      rfl
    have picked := picked_heldShare h hn small choice ht sign
    rw [settledShare, if_congr (and_congr_right fun _ => raised) rfl rfl]
    exact ⟨⟨picked.holds, fun alone => absurd alone only⟩,
      fun r room => picked.extreme r room.toLeeway⟩

/-- A path variable that has to carry the cut alone has no room unless its path follows and is
certain. -/
theorem not_room (h : Encoding d o isLazy z x m) (hn : d.Normalized)
    (small : z.vars.length < Word.count64) (choice : IsChoice z a) {t : Path × ℕ}
    (only : x.vars = [t])
    (none : ¬ ((strategyOf z a).Follows d t.1 ∧ d.weight t.1 = 1)) (r : ℚ) :
    ¬ Room d o z x a t r := by
  intro room
  have ht : t ∈ x.vars := only ▸ List.mem_singleton_self t
  have hp := h.paths.inRange ht
  have carried := room.alone only
  have weight_pos := h.paths.weight_pos hn ht
  have follows : (strategyOf z a).Follows d t.1 := by
    rw [choice.follows_strategyOf_iff h.decisions hn.arranged small hp]
    intro v hv
    refine (choice.bits v (h.selectedAt_subset hn small hp v hv)).resolve_left fun zero => ?_
    have low := room.linked v hv
    rw [zero] at low
    rw [le_antisymm low room.nonneg, mul_zero] at carried
    exact zero_ne_one carried
  have weight_le := hn.weight_le_one hp
  have one_le : 1 ≤ d.weight t.1 := by
    calc 1 = d.weight t.1 * r := carried.symm
      _ ≤ d.weight t.1 * 1 := mul_le_mul_of_nonneg_left room.le_one weight_pos.le
      _ = d.weight t.1 := mul_one _
  exact none ⟨follows, le_antisymm weight_le one_le⟩

end Room

end Influence
