import Influence.Proofs.Paths
import Influence.Proofs.Search

/-!
# Values carried from candidate to candidate

The search works on one array of values: a candidate is written over what the last one left, also
where that one was given up half way.  Nothing of this shows (`search_eq_best?`).  A candidate sets
every binary variable, what confines a continuous variable reads no other continuous one, and each of
them is set in turn, so that every value is set before it is read (`settleAll_congr`).

What `solve` answers is therefore what the candidates by themselves say.
-/

namespace Influence

open Program

namespace Search

variable {α : Type} [Scalar α] {m : Program α}

/-! ## What settling reads -/

omit [Scalar α] in
/-- The other variables of a constraint that confines one are not continuous. -/
theorem single?_eq_some {c : Constraint α} {v : ℕ} {k : α} (h : single? m c = some (v, k)) :
    (v, k) ∈ c.expr.terms ∧ ∀ t ∈ c.expr.terms, t.1 ≠ v → ¬ m.isContinuous t.1 = true := by
  unfold single? at h
  split at h
  case h_1 u only =>
    obtain rfl := Option.some.inj h
    have kept {t : ℕ × α} (ht : t ∈ c.expr.terms) (continuous : m.isContinuous t.1 = true) :
        t = (v, k) := by
      refine List.mem_singleton.mp (only ▸ List.mem_filter.mpr ⟨ht, continuous⟩)
    refine ⟨?_, fun t ht differ continuous => differ (by rw [kept ht continuous])⟩
    exact (List.mem_filter.mp (only ▸ List.mem_singleton_self (v, k))).1
  case h_2 => cases h

omit [Scalar α] in
theorem mem_confining {v : ℕ} {e : Constraint α × α} :
    e ∈ confining m v ↔ e.1 ∈ m.constraints ∧ single? m e.1 = some (v, e.2) := by
  unfold confining
  rw [List.mem_filterMap]
  constructor
  · rintro ⟨c, hc, found⟩
    cases single : single? m c with
    | none => rw [single] at found; cases found
    | some t =>
      rw [single] at found
      by_cases same : t.1 = v
      · obtain rfl := Option.some.inj ((if_pos same).symm.trans found)
        exact ⟨Array.mem_toList_iff.mp hc, by rw [single, ← same]⟩
      · cases (if_neg same).symm.trans found
  · rintro ⟨hc, single⟩
    refine ⟨e.1, Array.mem_toList_iff.mpr hc, ?_⟩
    rw [single]
    exact if_pos rfl

section Reads

variable {values values' : Array α} {v : ℕ}

theorem confine_congr {c : Constraint α} (bounds : α × α) (k : α)
    (same : ∀ t ∈ c.expr.terms, t.1 ≠ v → values.getD t.1 0 = values'.getD t.1 0) :
    confine values v bounds c k = confine values' v bounds c k := by
  have rest : (c.expr.terms.filter fun t => t.1 ≠ v).map (fun t => t.2 * values.getD t.1 0) =
      (c.expr.terms.filter fun t => t.1 ≠ v).map fun t => t.2 * values'.getD t.1 0 := by
    refine List.map_congr_left fun t ht => ?_
    obtain ⟨ht, differ⟩ := List.mem_filter.mp ht
    rw [same t ht (by simpa using differ)]
  change (if holdsUp c.sense k then Scalar.larger bounds.1 ((c.rhs - Scalar.sum _) / k)
    else bounds.1, if holdsDown c.sense k then Scalar.smaller bounds.2 _ else bounds.2) = _
  rw [rest]
  rfl

/-- The interval of a continuous variable does not depend on the other continuous ones. -/
theorem foldl_confine_congr
    (same : ∀ w, ¬ m.isContinuous w = true → values.getD w 0 = values'.getD w 0)
    (bounds : α × α) :
    (confining m v).foldl (fun b e => confine values v b e.1 e.2) bounds =
      (confining m v).foldl (fun b e => confine values' v b e.1 e.2) bounds := by
  refine List.foldl_ext _ _ _ fun b e he => confine_congr b e.2 fun t ht differ => ?_
  exact same _ ((single?_eq_some (mem_confining.mp he).2).2 t ht differ)

theorem eq_of_getD (size : values.size = values'.size)
    (same : ∀ w, values.getD w 0 = values'.getD w 0) : values = values' := by
  refine Array.ext size fun i hi hi' => ?_
  have equal := same i
  rwa [Array.getD_eq_getD_getElem?, Array.getD_eq_getD_getElem?, Array.getElem?_eq_getElem hi,
    Array.getElem?_eq_getElem hi'] at equal

end Reads

/-- Settling all that is left overwrites all that differs. -/
theorem settleAll_congr {tolerance : α} {ss : List (Settling α)} (known : ∀ s ∈ ss, s ∈ settlings m)
    {values values' : Array α} (size : values.size = m.vars.size) (size' : values'.size = m.vars.size)
    (same : ∀ v, v ∉ ss.map (·.index) → values.getD v 0 = values'.getD v 0) :
    settleAll tolerance ss values = settleAll tolerance ss values' := by
  induction ss generalizing values values' with
  | nil => rw [eq_of_getD (size.trans size'.symm) fun v => same v List.not_mem_nil]
  | cons s ss ih =>
    obtain ⟨own, rest⟩ := List.forall_mem_cons.mp known
    obtain ⟨w, hw, -, settles⟩ := mem_settlings.mp own
    have inside : s.index < m.vars.size := (Array.getElem?_eq_some_iff.mp hw).1
    have bounds : s.confining.foldl (fun b e => confine values s.index b e.1 e.2) s.bounds =
        s.confining.foldl (fun b e => confine values' s.index b e.1 e.2) s.bounds := by
      have confines : s.confining = confining m s.index := by rw [settles]
      rw [confines]
      refine foldl_confine_congr (fun v other => same v fun index => other ?_) s.bounds
      obtain ⟨u, hu, rfl⟩ := List.mem_map.mp index
      exact mem_index_settlings.mp (List.mem_map_of_mem (known u hu))
    have next (x : α) : settleAll tolerance ss (values.setIfInBounds s.index x) =
        settleAll tolerance ss (values'.setIfInBounds s.index x) := by
      refine ih rest (by rwa [Array.size_setIfInBounds]) (by rwa [Array.size_setIfInBounds])
        fun v hv => ?_
      by_cases here : v = s.index
      · rw [here, getD_set_self (size.symm ▸ inside), getD_set_self (size'.symm ▸ inside)]
      · rw [getD_set_of_ne here, getD_set_of_ne here]
        refine same v fun index => ?_
        rcases List.mem_cons.mp index with own | later
        · exact here own
        · exact hv later
    rw [settleAll, settleAll]
    unfold Settling.settle
    simp only [bounds]
    by_cases crossed : (s.confining.foldl (fun b e => confine values' s.index b e.1 e.2)
      s.bounds).2 + tolerance < (s.confining.foldl (fun b e => confine values' s.index b e.1 e.2)
      s.bounds).1
    · simp only [if_pos crossed]
    · simp only [if_neg crossed]
      cases pick? s.preference
        (s.confining.foldl (fun b e => confine values' s.index b e.1 e.2) s.bounds) with
      | none => rfl
      | some x => exact next x

/-! ## What candidates set -/

/-- What is set does not show what was there before. -/
theorem getD_foldl_set_congr {es : List (ℕ × α)} {values values' : Array α}
    (size : values.size = values'.size) {v : ℕ}
    (covered : v ∈ es.map (·.1) ∨ values.getD v 0 = values'.getD v 0) :
    (es.foldl (fun (values : Array α) e => values.setIfInBounds e.1 e.2) values).getD v 0 =
      (es.foldl (fun (values : Array α) e => values.setIfInBounds e.1 e.2) values').getD v 0 := by
  induction es generalizing values values' with
  | nil => exact covered.resolve_left List.not_mem_nil
  | cons e es ih =>
    refine ih (by rw [Array.size_setIfInBounds, Array.size_setIfInBounds, size]) ?_
    by_cases here : v = e.1
    · right
      by_cases inside : e.1 < values.size
      · rw [here, getD_set_self inside, getD_set_self (size ▸ inside)]
      · have outside : ¬ e.1 < values'.size := size ▸ inside
        simp [here, Array.getD, inside, outside]
    · rw [getD_set_of_ne here, getD_set_of_ne here]
      refine covered.imp_left fun listed => ?_
      rcases List.mem_cons.mp listed with own | later
      · exact absurd own here
      · exact later

/-- A candidate sets the members of all groups and the free bits. -/
theorem map_fst_writes_of_mem {s : Space} {choice : Path} (mem : choice ∈ s.choices) :
    (s.writes α choice).map (·.1) = s.groups.flatten ++ s.free := by
  have length : choice.length = s.groups.length + s.free.length := by
    have ranges := inRange_iff_forall₂.mp (Paths.mem_toList_ofStates.mp mem)
    rw [ranges.length_eq, Space.dims, List.length_append, List.length_map, List.length_map]
  rw [Space.writes, List.map_append, List.map_flatMap, List.map_map]
  congr 1
  · have members (g : List ℕ × ℕ) : (g.1.zipIdx.map fun e =>
        ((e.1, if e.2 = g.2 then 1 else 0) : ℕ × α)).map (·.1) = g.1 := by
      rw [List.map_map]
      exact List.zipIdx_map_fst 0 g.1
    simp only [members]
    rw [List.flatMap_def, List.map_fst_zip (by omega)]
  · exact List.map_fst_zip (by rw [List.length_drop]; omega)

theorem isBinary_mem_space {v : ℕ} (hv : m.isBinary v = true) :
    v ∈ (space m).groups.flatten ++ (space m).free := by
  rw [List.mem_append]
  by_cases grouped : ∃ g ∈ groups m, v ∈ g
  · exact .inl (List.mem_flatten.mpr grouped)
  · refine .inr (List.mem_filter.mpr ⟨?_, ?_⟩)
    · rw [isBinary] at hv
      rw [List.mem_range]
      by_contra high
      rw [Array.getElem?_eq_none (not_lt.mp high)] at hv
      cases hv
    · rw [hv, Bool.true_and, Bool.not_eq_true', List.any_eq_false]
      exact fun g hg contains => grouped ⟨g, hg, List.contains_iff_mem.mp contains⟩

/-- A candidate comes to the same completion whatever it is written over. -/
theorem settleAll_assign_congr (tolerance : α) {choice : Path} (mem : choice ∈ (space m).choices)
    {values values' : Array α} (size : values.size = m.vars.size)
    (size' : values'.size = m.vars.size) :
    settleAll tolerance (settlings m) ((space m).assign choice values) =
      settleAll tolerance (settlings m) ((space m).assign choice values') := by
  refine settleAll_congr (fun s hs => hs) (by rw [size_assign, size]) (by rw [size_assign, size'])
    fun v hv => ?_
  rw [assign_eq_foldl, assign_eq_foldl]
  refine getD_foldl_set_congr (size.trans size'.symm) ?_
  by_cases inside : v < m.vars.size
  · left
    rw [map_fst_writes_of_mem mem]
    exact isBinary_mem_space ((isBinary_or_isContinuous inside).resolve_right
      fun continuous => hv (mem_index_settlings.mpr continuous))
  · right
    simp [Array.getD, size, size', inside]

/-! ## The search -/

theorem size_settle {tolerance : α} {s : Settling α} {values values' : Array α}
    (h : s.settle tolerance values = .ok (some values')) : values'.size = values.size := by
  unfold Settling.settle at h
  dsimp only at h
  split at h
  · cases h
  · split at h
    · obtain rfl := Option.some.inj (Except.ok.inj h)
      exact Array.size_setIfInBounds
    · cases h

/-- What settling up to an empty interval comes to is what settling all comes to. -/
theorem settleUntil_cases (tolerance : α) (ss : List (Settling α)) (values : Array α) :
    (∃ e, settleUntil tolerance ss values = .error e ∧ settleAll tolerance ss values = .error e) ∨
    (∃ values', settleUntil tolerance ss values = .ok (false, values') ∧
      settleAll tolerance ss values = .ok none ∧ values'.size = values.size) ∨
    ∃ values', settleUntil tolerance ss values = .ok (true, values') ∧
      settleAll tolerance ss values = .ok (some values') ∧ values'.size = values.size := by
  induction ss generalizing values with
  | nil => exact .inr (.inr ⟨values, rfl, rfl, rfl⟩)
  | cons s ss ih =>
    rw [settleUntil, settleAll]
    cases run : s.settle tolerance values with
    | error e => exact .inl ⟨e, rfl, rfl⟩
    | ok found =>
      cases found with
      | none => exact .inr (.inl ⟨values, rfl, rfl, rfl⟩)
      | some between =>
        have size : between.size = values.size := size_settle run
        rw [← size]
        exact ih between

theorem visit_of_error {p : Plan α} {tolerance : α} {best : Option (Scored α)} {values : Array α}
    {choice : Path} {e : SolverError}
    (run : settleUntil tolerance p.settlings (p.space.assign choice values) = .error e) :
    p.visit tolerance best values choice = .error e := by
  unfold Plan.visit
  simp only [run, bind, Except.bind]

theorem visit_of_ok {p : Plan α} {tolerance : α} {best : Option (Scored α)}
    {values values' : Array α} {choice : Path} {complete : Bool}
    (run : settleUntil tolerance p.settlings (p.space.assign choice values) =
      .ok (complete, values')) :
    p.visit tolerance best values choice =
      .ok (if complete && p.program.constraints.all (·.isSatisfied values' tolerance) then
        better tolerance best (p.scored choice values') else best, values') := by
  unfold Plan.visit
  simp only [run, bind, Except.bind]
  split <;> rfl

/-- A visit comes to what the candidate by itself comes to. -/
theorem visit_cases {tolerance : α} {choice : Path} (mem : choice ∈ (space m).choices)
    {values : Array α} (size : values.size = m.vars.size) (best : Option (Scored α)) :
    (∃ e, (plan m).attempt tolerance choice = .error e ∧
      (plan m).visit tolerance best values choice = .error e) ∨
    (∃ values', (plan m).attempt tolerance choice = .ok none ∧ values'.size = m.vars.size ∧
      (plan m).visit tolerance best values choice = .ok (best, values')) ∨
    ∃ s values', (plan m).attempt tolerance choice = .ok (some s) ∧
      values'.size = m.vars.size ∧
      (plan m).visit tolerance best values choice = .ok (better tolerance best s, values') := by
  have fresh := settleAll_assign_congr tolerance mem size
    (Array.size_replicate : (Array.replicate m.vars.size (0 : α)).size = m.vars.size)
  rcases settleUntil_cases tolerance (settlings m) ((space m).assign choice values) with
    ⟨e, stops, run⟩ | ⟨values', stops, run, kept⟩ | ⟨values', completes, run, kept⟩ <;>
    rw [fresh] at run
  · exact .inl ⟨e, attempt_of_error (p := plan m) run, visit_of_error (p := plan m) stops⟩
  · rw [size_assign, size] at kept
    exact .inr (.inl ⟨values', attempt_of_unsettled (p := plan m) run, kept,
      visit_of_ok (p := plan m) stops⟩)
  · rw [size_assign, size] at kept
    have attempt := attempt_of_settleAll (p := plan m) run
    have visit : (plan m).visit tolerance best values choice = _ := visit_of_ok completes
    rw [Bool.true_and] at visit
    split at attempt
    case isTrue passes =>
      rw [if_pos passes] at visit
      exact .inr (.inr ⟨_, values', attempt, kept, visit⟩)
    case isFalse fails =>
      rw [if_neg fails] at visit
      exact .inr (.inl ⟨values', attempt, kept, visit⟩)

/-- The search finds the best of what the candidates by themselves come to. -/
theorem search_eq_best? (m : Program α) (tolerance : α) :
    (plan m).search tolerance (space m).choices = (plan m).best? tolerance (space m).choices := by
  have step (choices : List Path) (known : ∀ choice ∈ choices, choice ∈ (space m).choices)
      (best : Option (Scored α)) (values : Array α) (size : values.size = m.vars.size) :
      (choices.foldlM (fun s choice => (plan m).visit tolerance s.1 s.2 choice) (best, values) >>=
        fun last => pure last.1) = choices.foldlM ((plan m).next? tolerance) best := by
    induction choices generalizing best values with
    | nil => rfl
    | cons choice choices ih =>
      obtain ⟨mem, rest⟩ := List.forall_mem_cons.mp known
      rw [List.foldlM_cons, List.foldlM_cons, Plan.next?]
      rcases visit_cases mem size best with
        ⟨e, attempt, visit⟩ | ⟨values', attempt, size, visit⟩ | ⟨s, values', attempt, size, visit⟩
      · rw [attempt, visit]
        rfl
      · rw [attempt, visit]
        exact ih rest best values' size
      · rw [attempt, visit]
        exact ih rest (better tolerance best s) values' size
  exact step _ (fun _ h => h) none _ Array.size_replicate

/-- A search within its limit answers as the best candidate says. -/
theorem solve_eq_match {limit : ℕ} {tolerance : α} {m : Program α}
    (small : (space m).count ≤ limit) :
    solve ⟨limit, tolerance⟩ m =
      match (plan m).best? tolerance (space m).choices with
      | .ok (some s) => .ok ⟨s.values, m.objective.evaluate s.values⟩
      | .ok none => .error .infeasible
      | .error e => .error e := by
  unfold solve
  dsimp only
  rw [if_neg (not_lt.mpr small : ¬ limit < (plan m).space.count)]
  change (plan m).search tolerance (space m).choices >>= _ = _
  rw [search_eq_best?]
  cases (plan m).best? tolerance (space m).choices with
  | error e => rfl
  | ok best => cases best <;> rfl

/-- A search that answers has kept a candidate. -/
theorem solve_eq_ok {settings : SearchSettings α} {m : Program α} {s : Solution α}
    (h : solve settings m = .ok s) :
    ∃ top, (plan m).best? settings.tolerance (plan m).space.choices = .ok (some top) ∧
      s = ⟨top.values, m.objective.evaluate top.values⟩ := by
  unfold solve at h
  dsimp only at h
  by_cases large : settings.maxAssignments < (plan m).space.count
  · rw [if_pos large] at h
    cases h
  rw [if_neg large] at h
  obtain ⟨best, run, h⟩ := except_bind_eq_ok.mp h
  cases best with
  | none => cases h
  | some top => exact ⟨top, (search_eq_best? m _).symm.trans run, (except_pure_eq_ok.mp h).symm⟩

/-- A search without unbounded candidates finds a program infeasible when it has kept none. -/
theorem solve_eq_infeasible_iff {settings : SearchSettings α} {m : Program α}
    (small : (space m).count ≤ settings.maxAssignments) {best : Option (Scored α)}
    (run : (plan m).best? settings.tolerance (plan m).space.choices = .ok best) :
    solve settings m = .error .infeasible ↔ best = none := by
  change (plan m).best? settings.tolerance (space m).choices = _ at run
  obtain ⟨limit, tolerance⟩ := settings
  rw [solve_eq_match small, run]
  cases best with
  | none => exact iff_of_true rfl rfl
  | some s => exact iff_of_false nofun nofun

end Search

end Influence
