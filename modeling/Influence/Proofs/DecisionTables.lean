import Influence.Outcome.Report
import Influence.Proofs.CompatiblePaths

/-!
# Tables of choices

What is chosen at a decision node is laid out four times by the state of its information: as groups
of binary variables, as positions in a list of choices, as rules, and as rules with names in a
report.  A solution has a strategy exactly if every group has one variable that counts as chosen
(`exists_strategy_iff`), and otherwise the first other group is reported
(`strategy_eq_error_iff`).  Along every path the variable that the path selects counts as chosen
exactly if the path has the choice that the other three tables have for what the node observes
(`tables_agree`).

Nothing is asked of the arithmetic: only which variables count as chosen matters
(`IsChoice.of_counts`).  That zero and one are on different sides of the threshold
(`Scalar.HasUnits`) is what reading a strategy back from its own bits needs.
-/

namespace Influence

open DecisionVariables

variable {α : Type}

/-! ## The order of information states -/

namespace Diagram

/-- A node and a state of its information before another: by the node, then lexicographically. -/
def Before (e f : ℕ × List ℕ) : Prop := e.1 < f.1 ∨ e.1 = f.1 ∧ e.2 < f.2

theorem mem_informationStates {d : Diagram α} {i : ℕ} {q : List ℕ} :
    (i, q) ∈ d.informationStates ↔ i ∈ d.decision ∧ inRange (d.informationShape i) q = true := by
  rw [informationStates, List.mem_flatMap]
  constructor
  · rintro ⟨j, hj, listed⟩
    rcases List.mem_map.mp listed with ⟨r, hr, same⟩
    obtain ⟨rfl, rfl⟩ := Prod.mk.inj same
    exact ⟨hj, Paths.mem_toList_ofStates.mp hr⟩
  · rintro ⟨hi, hq⟩
    exact ⟨i, hi, List.mem_map_of_mem (Paths.mem_toList_ofStates.mpr hq)⟩

theorem Arranged.pairwise_informationStates {d : Diagram α} (h : d.Arranged) :
    d.informationStates.Pairwise Before := by
  have ascending : d.decision.Pairwise (· < ·) := h.decision ▸ pairwise_positionsWhere _ _
  refine List.pairwise_flatMap.mpr ⟨fun i _ => ?_, ascending.imp fun {i j} lt => ?_⟩
  · rw [Paths.toList_ofStates, List.pairwise_map]
    exact (Paths.pairwise_lt_all _).imp fun lt => .inr ⟨rfl, lt⟩
  · rintro e he f hf
    rcases List.mem_map.mp he with ⟨_, -, rfl⟩
    rcases List.mem_map.mp hf with ⟨_, -, rfl⟩
    exact .inl lt

end Diagram

/-! ## Groups of a solution -/

section Groups

variable [Scalar α] {d : Diagram α} {z : DecisionVariables} {start : ℕ} {s : Solution α}

/-- How many variables of a group count as chosen. -/
def Solution.activeCount (s : Solution α) (group : List ℕ) : ℕ :=
  group.countP fun v => decide ((threshold : α) ≤ s.value v)

/-- A variable that counts as chosen is one, any other one is zero. -/
def Solution.mark (s : Solution α) (v : ℕ) : ℚ := if (threshold : α) ≤ s.value v then 1 else 0

theorem Solution.activeCount_cons (s : Solution α) (v : ℕ) (group : List ℕ) :
    s.activeCount (v :: group) =
      s.activeCount group + if (threshold : α) ≤ s.value v then 1 else 0 := by
  rw [activeCount, List.countP_cons, activeCount]
  simp only [decide_eq_true_eq]

theorem Solution.mark_eq_one_iff {v : ℕ} : s.mark v = 1 ↔ (threshold : α) ≤ s.value v := by
  unfold mark
  split
  case isTrue chosen => exact iff_of_true rfl chosen
  case isFalse other => exact iff_of_false zero_ne_one other

theorem Solution.sum_mark (s : Solution α) (group : List ℕ) :
    (group.map s.mark).sum = s.activeCount group := by
  induction group with
  | nil => rfl
  | cons v group ih =>
    rw [List.map_cons, List.sum_cons, ih, activeCount_cons, mark, Nat.cast_add, Nat.cast_ite,
      Nat.cast_one, Nat.cast_zero, add_comm]

namespace DecisionVariables

theorem length_active (s : Solution α) (group : List ℕ) :
    (active s group).length = s.activeCount group := by
  have shifted (k : ℕ) : ((group.zipIdx k).filterMap fun e =>
      if (threshold : α) ≤ s.value e.1 then some e.2 else none).length = s.activeCount group := by
    induction group generalizing k with
    | nil => rfl
    | cons v group ih =>
      rw [List.zipIdx_cons, List.filterMap_cons, Solution.activeCount_cons, ← ih (k + 1)]
      by_cases chosen : (threshold : α) ≤ s.value v <;> simp [chosen]
  exact shifted 0

theorem choice_eq_error_iff {l : LocalVariables} {q : List ℕ} {e : ProgramError α} :
    LocalVariables.choice l s q = .error e ↔ s.activeCount (l.group q) ≠ 1 ∧
      e = .infeasibleStrategy l.name q (s.activeCount (l.group q)) := by
  rw [← length_active]
  unfold LocalVariables.choice
  split
  case h_1 k single => simp [single]
  case h_2 other =>
    have many : (active s (l.group q)).length ≠ 1 := by
      intro one
      rcases List.length_eq_one_iff.mp one with ⟨k, single⟩
      exact other k single
    constructor
    · intro failed
      exact ⟨many, (Except.error.inj failed).symm⟩
    · rintro ⟨-, rfl⟩
      rfl

theorem exists_choice_iff {l : LocalVariables} {q : List ℕ} :
    (∃ k, LocalVariables.choice l s q = .ok k) ↔ s.activeCount (l.group q) = 1 := by
  cases run : LocalVariables.choice l s q with
  | ok k =>
    refine iff_of_true ⟨k, rfl⟩ ?_
    by_contra many
    rw [choice_eq_error_iff.mpr ⟨many, rfl⟩] at run
    cases run
  | error e => exact iff_of_false nofun (choice_eq_error_iff.mp run).1

/-- The choices of a node are read if each of its groups has one. -/
theorem exists_local_iff {l : LocalVariables} :
    (∃ k, LocalVariables.strategy l s = .ok k) ↔
      ∀ q, inRange l.shape q = true → s.activeCount (l.group q) = 1 := by
  simp only [← exists_choice_iff, ← Paths.mem_toList_ofStates]
  constructor
  · rintro ⟨k, run⟩ q hq
    rcases except_bind_eq_ok.mp run with ⟨choices, read, -⟩
    rcases except_eq_ok_of_mem_mapM read hq with ⟨c, -, chosen⟩
    exact ⟨c, chosen⟩
  · intro chosen
    exact exists_except_map (exists_except_mapM chosen)

/-- Reading the choices of a node fails at its first group without exactly one. -/
theorem local_eq_error_iff {l : LocalVariables} {e : ProgramError α} :
    LocalVariables.strategy l s = .error e ↔ ∃ q,
      (Paths.ofStates l.shape).toList.find? (fun q => s.activeCount (l.group q) != 1) = some q ∧
        e = .infeasibleStrategy l.name q (s.activeCount (l.group q)) := by
  have read : LocalVariables.strategy l s = .error e ↔
      (Paths.ofStates l.shape).toList.mapM (LocalVariables.choice l s) = .error e := by
    unfold LocalVariables.strategy
    rw [except_bind_eq_error]
    exact or_iff_left (fun ⟨_, _, made⟩ => by cases made)
  simp only [read, except_mapM_eq_error_iff, exists_choice_iff, choice_eq_error_iff,
    List.find?_eq_some_iff_append, bne_iff_ne, Bool.not_eq_true', bne_eq_false_iff_eq]
  constructor
  · rintro ⟨front, q, back, split, single, other, rfl⟩
    exact ⟨q, ⟨other, front, back, split, single⟩, rfl⟩
  · rintro ⟨q, ⟨other, front, back, split, single⟩, rfl⟩
    exact ⟨front, q, back, split, single, other, rfl⟩

/-! ## Reading a solution -/

/-- How many variables of a decision node count as chosen at a state of its information. -/
def activeAt (z : DecisionVariables) (s : Solution α) (e : ℕ × List ℕ) : ℕ :=
  s.activeCount (z.groupAt e.1 e.2)

omit [Scalar α] in
theorem LaidOut.groupAt_eq (h : LaidOut d z start) (arranged : d.Arranged) {l : LocalVariables}
    (hl : l ∈ z.locals) (q : List ℕ) : z.groupAt l.node q = l.group q := by
  rw [groupAt, h.local?_eq arranged hl, Option.map_some, Option.getD_some]

omit [Scalar α] in
theorem LaidOut.groupAt_eq_map_cell (h : LaidOut d z start) (arranged : d.Arranged)
    (small : z.vars.length < Word.count64) {l : LocalVariables} (hl : l ∈ z.locals) {q : List ℕ}
    (hq : inRange l.shape q = true) :
    z.groupAt l.node q = (List.range l.states).map (l.cell q) := by
  rw [h.groupAt_eq arranged hl, LocalVariables.group_eq (h.locals l hl) (h.states_pos arranged hl)
    ((h.length_le hl).trans_lt small) hq]

/-- The first group of a node without exactly one, among the information states of the diagram. -/
theorem find?_node (h : LaidOut d z start) (arranged : d.Arranged) {l : LocalVariables}
    (hl : l ∈ z.locals) :
    ((Paths.ofStates (d.informationShape l.node)).toList.map fun q => (l.node, q)).find?
        (fun e => z.activeAt s e != 1) =
      ((Paths.ofStates l.shape).toList.find? fun q => s.activeCount (l.group q) != 1).map
        fun q => (l.node, q) := by
  rw [List.find?_map, (h.locals l hl).shape]
  refine congrArg (Option.map _) (List.find?_congr fun q _ => ?_)
  rw [Function.comp_apply, activeAt, h.groupAt_eq arranged hl]

/-- Reading fails at the first group without exactly one. -/
theorem strategy_eq_error_iff (h : LaidOut d z start) (arranged : d.Arranged)
    {e : ProgramError α} : z.strategy s = .error e ↔
      ∃ i q, d.informationStates.find? (fun e => z.activeAt s e != 1) = some (i, q) ∧
        e = .infeasibleStrategy (d.nameOf i) q (z.activeAt s (i, q)) := by
  have read : z.strategy s = .error e ↔
      z.locals.mapM (fun l => LocalVariables.strategy l s) = .error e := by
    unfold strategy
    rw [except_bind_eq_error]
    exact or_iff_left (fun ⟨_, _, made⟩ => by cases made)
  rw [read, except_mapM_eq_error_iff, Diagram.informationStates, ← h.nodes, List.flatMap_map,
    List.find?_flatMap]
  simp only [List.findSome?_eq_some_iff, local_eq_error_iff]
  constructor
  · rintro ⟨front, l, back, split, passed, q, found, rfl⟩
    have member : ∀ k ∈ front ++ l :: back, k ∈ z.locals := fun k hk => split ▸ hk
    have hl := member l (List.mem_append_right _ List.mem_cons_self)
    refine ⟨l.node, q, ⟨front, l, back, split, ?_, fun k hk => ?_⟩, ?_⟩
    · rw [find?_node h arranged hl, found, Option.map_some]
    · rw [find?_node h arranged (member k (List.mem_append_left _ hk)), Option.map_eq_none_iff,
        List.find?_eq_none]
      intro r hr
      have single := exists_local_iff.mp (passed k hk) r (Paths.mem_toList_ofStates.mp hr)
      rw [single]
      decide
    · rw [(h.locals l hl).name, activeAt, h.groupAt_eq arranged hl]
  · rintro ⟨i, q, ⟨front, l, back, split, found, passed⟩, rfl⟩
    have member : ∀ k ∈ front ++ l :: back, k ∈ z.locals := fun k hk => split ▸ hk
    have hl := member l (List.mem_append_right _ List.mem_cons_self)
    rw [find?_node h arranged hl] at found
    rcases Option.map_eq_some_iff.mp found with ⟨r, first, same⟩
    obtain ⟨rfl, rfl⟩ := Prod.mk.inj same
    refine ⟨front, l, back, split, fun k hk => ?_, r, first, ?_⟩
    · refine exists_local_iff.mpr fun r hr => ?_
      have none := passed k hk
      rw [find?_node h arranged (member k (List.mem_append_left _ hk)), Option.map_eq_none_iff,
        List.find?_eq_none] at none
      simpa using none r (Paths.mem_toList_ofStates.mpr hr)
    · rw [(h.locals l hl).name, activeAt, h.groupAt_eq arranged hl]

/-- A solution has a strategy exactly if every group has one variable that counts as chosen. -/
theorem exists_strategy_iff (h : LaidOut d z start) (arranged : d.Arranged) :
    (∃ σ, z.strategy s = .ok σ) ↔ ∀ e ∈ d.informationStates, z.activeAt s e = 1 := by
  have first : (∀ e ∈ d.informationStates, z.activeAt s e = 1) ↔
      d.informationStates.find? (fun e => z.activeAt s e != 1) = none := by
    simp [List.find?_eq_none]
  rw [first]
  cases run : z.strategy s with
  | ok σ =>
    refine iff_of_true ⟨σ, rfl⟩ (Option.eq_none_iff_forall_ne_some.mpr fun e found => ?_)
    rw [(strategy_eq_error_iff h arranged).mpr ⟨e.1, e.2, found, rfl⟩] at run
    cases run
  | error e =>
    rcases (strategy_eq_error_iff h arranged).mp run with ⟨i, q, found, -⟩
    refine iff_of_false nofun fun none => ?_
    rw [found] at none
    cases none

/-- Where every group has one variable that counts as chosen, these variables make a choice. -/
theorem IsChoice.of_counts (h : LaidOut d z start) (arranged : d.Arranged)
    (small : z.vars.length < Word.count64)
    (single : ∀ e ∈ d.informationStates, z.activeAt s e = 1) : IsChoice z s.mark where
  bits v _ := by
    unfold Solution.mark
    split
    · exact .inr rfl
    · exact .inl rfl
  one g hg := by
    rw [h.blocks_eq_groups arranged small] at hg
    rcases List.mem_map.mp hg with ⟨e, he, rfl⟩
    rw [Solution.sum_mark]
    exact_mod_cast single e he

/-- A solution whose groups each have one variable that counts as chosen has the strategy of
these variables. -/
theorem strategy_of_counts (h : LaidOut d z start) (arranged : d.Arranged)
    (small : z.vars.length < Word.count64)
    (single : ∀ e ∈ d.informationStates, z.activeAt s e = 1) :
    z.strategy s = .ok (strategyOf z s.mark) :=
  strategy_eq_ok_of_threshold (IsChoice.of_counts h arranged small single) h arranged small
    fun _ _ => Solution.mark_eq_one_iff.symm

/-- A strategy that is read off a solution is that of the variables that count as chosen. -/
theorem eq_strategyOf_mark (h : LaidOut d z start) (arranged : d.Arranged)
    (small : z.vars.length < Word.count64) {σ : Strategy} (read : z.strategy s = .ok σ) :
    IsChoice z s.mark ∧ σ = strategyOf z s.mark := by
  have single := (exists_strategy_iff h arranged).mp ⟨σ, read⟩
  exact ⟨IsChoice.of_counts h arranged small single,
    Except.ok.inj (read.symm.trans (strategy_of_counts h arranged small single))⟩

theorem covers_of_strategy (h : LaidOut d z start) (arranged : d.Arranged)
    (assembled : d.phase ≠ .building) (small : z.vars.length < Word.count64) {σ : Strategy}
    (read : z.strategy s = .ok σ) : σ.Covers d := by
  obtain ⟨choice, rfl⟩ := eq_strategyOf_mark h arranged small read
  exact choice.covers_strategyOf h arranged assembled small

end DecisionVariables

end Groups

/-! ## Choices by information state -/

section Choices

variable {d : Diagram α} {z : DecisionVariables} {start : ℕ} {a : ℕ → ℚ} {l : LocalVariables}

/-- The rules pair the states of the information with the choices as far as there are choices. -/
theorem LocalStrategy.rules_eq_zip (l : LocalStrategy) :
    l.rules = (Paths.ofStates l.shape).toList.zip l.choices := by
  conv_rhs => rw [List.zip_eq_zip_take_min]
  rw [rules, Paths.take_ofStates, List.zip_eq_zip_take_min, List.length_take, List.take_take,
    min_comm l.choices.length]
  simp

/-- The rules of a node list every state of its information once, with its choice. -/
theorem DecisionVariables.rules_localOf (a : ℕ → ℚ) (l : LocalVariables) :
    (localOf a l).rules = (Paths.ofStates l.shape).toList.map fun q => (q, chosen a l q) :=
  (localOf a l).rules_eq_zip.trans List.map_prod_left_eq_zip.symm

theorem DecisionVariables.mem_rules_localOf {q : List ℕ} {c : ℕ} :
    (q, c) ∈ (localOf a l).rules ↔ inRange l.shape q = true ∧ c = chosen a l q := by
  rw [rules_localOf, List.mem_map]
  constructor
  · rintro ⟨r, hr, same⟩
    obtain ⟨rfl, rfl⟩ := Prod.mk.inj same
    exact ⟨Paths.mem_toList_ofStates.mp hr, rfl⟩
  · rintro ⟨hq, rfl⟩
    exact ⟨q, Paths.mem_toList_ofStates.mpr hq, rfl⟩

/-- The choice for what a path lets a node observe is the choice along the path. -/
theorem LocalStrategy.choice?_observed {l : LocalStrategy} {p : Path}
    (observed : inRange l.shape (l.informationSet.map fun i => p.getD i 0) = true) :
    l.choice? (l.informationSet.map fun i => p.getD i 0) = l.choiceOn? p :=
  if_pos observed

/-- The choice for what a node observes. -/
theorem DecisionVariables.choice?_localOf (fits : l.shape.prod < Word.count64) {q : List ℕ}
    (hq : inRange l.shape q = true) : (localOf a l).choice? q = some (chosen a l q) := by
  change (if inRange l.shape q = true then
    ((Paths.ofStates l.shape).toList.map (chosen a l))[dot (strides l.shape) q]? else none) = _
  rw [if_pos hq, dot_strides_of_lt fits hq, List.getElem?_map,
    Paths.toList_ofStates_getElem?_rank hq, Option.map_some]

end Choices

/-! ## Names -/

theorem Node.nodup_states {n : Node} (faultless : n.fault? = none) : n.states.Nodup := by
  by_contra repeated
  unfold Node.fault? at faultless
  simp only [repeated, not_false_eq_true, if_true] at faultless
  split_ifs at faultless

namespace Diagram

variable {d : Diagram α}

/-- The names of the states that a node observes. -/
def observedNames (d : Diagram α) (i : ℕ) (q : List ℕ) : List String :=
  (q.zip (d.informationSet i)).map fun (s, j) => StrategyReport.stateName d j s

theorem Arranged.stateName_inj (arranged : d.Arranged) {j : ℕ} (hj : j < d.states.length)
    {s t : ℕ} (hs : s < d.states.getD j 0) (ht : t < d.states.getD j 0)
    (same : StrategyReport.stateName d j s = StrategyReport.stateName d j t) : s = t := by
  rcases arranged.inner j hj with ⟨n, hn, -, -⟩
  have distinct := Node.nodup_states (arranged.faultless n (List.mem_of_getElem? hn))
  have names : d.stateNames j = n.states := by
    rw [stateNames, hn]
    rfl
  rw [arranged.states_getD_eq hj, names] at hs ht
  rw [StrategyReport.stateName, StrategyReport.stateName, names, List.getD_eq_getElem _ _ hs,
    List.getD_eq_getElem _ _ ht] at same
  exact (distinct.getElem_inj_iff).mp same

/-- What a node observes can be told from the names of the states. -/
theorem Arranged.observedNames_inj (arranged : d.Arranged) {i : ℕ} {q r : List ℕ}
    (hq : inRange (d.informationShape i) q = true) (hr : inRange (d.informationShape i) r = true)
    (same : d.observedNames i q = d.observedNames i r) : q = r := by
  have known : ∀ j ∈ d.informationSet i, j < d.states.length := fun j hj =>
    (arranged.parents i j hj).2
  unfold informationShape at hq hr
  unfold observedNames at same
  generalize d.informationSet i = parents at hq hr same known
  induction parents generalizing q r with
  | nil =>
    rw [List.map_nil] at hq hr
    rw [List.length_eq_zero_iff.mp (length_of_inRange hq),
      List.length_eq_zero_iff.mp (length_of_inRange hr)]
  | cons j parents ih =>
    cases q with
    | nil => cases length_of_inRange hq
    | cons s q =>
      cases r with
      | nil => cases length_of_inRange hr
      | cons t r =>
        rcases List.forall_mem_cons.mp known with ⟨hj, known⟩
        rw [List.map_cons, inRange_cons] at hq hr
        rcases List.cons.inj same with ⟨first, rest⟩
        rw [arranged.stateName_inj hj hq.1 hr.1 first, ih hq.2 hr.2 rest known]

end Diagram

/-! ## Agreement -/

section Agreement

variable [Scalar α] {d : Diagram α} {z : DecisionVariables} {start : ℕ} {s : Solution α}

/-- The tables have one choice for a decision node along a path: the variable that the path selects
counts as chosen exactly if the path has the choice that the list of choices gives for the path, and
that is the choice for what the node observes, that of the only rule for it, and that of the only
reported rule with the names for it. -/
structure SameChoice (d : Diagram α) (z : DecisionVariables) (s : Solution α) (i : ℕ)
    (l : LocalStrategy) (p : Path) : Prop where
  selected : ∃ v, z.variableOn? i p = some v ∧
    ((threshold : α) ≤ s.value v ↔ p.getD i 0 = l.choiceOn p)
  path : l.choiceOn? p = some (l.choiceOn p)
  choice : l.choice? (d.informationState i p) = some (l.choiceOn p)
  rule : ∀ c, (d.informationState i p, c) ∈ l.rules ↔ c = l.choiceOn p
  reported : ∀ c, ⟨d.observedNames i (d.informationState i p), c⟩ ∈
    (StrategyReport.ofLocal d l).rules ↔ c = StrategyReport.stateName d i (l.choiceOn p)

theorem sameChoice (h : LaidOut d z start) (arranged : d.Arranged)
    (small : z.vars.length < Word.count64) (choice : IsChoice z s.mark) {l : LocalVariables}
    (hl : l ∈ z.locals) {p : Path} (hp : inRange d.states p = true) :
    SameChoice d z s l.node (localOf s.mark l) p := by
  have isFor := h.locals l hl
  have fits := (h.prod_le arranged hl).trans_lt small
  have observed := h.inRange_observed arranged hl hp
  have own : p.getD l.node 0 < l.states := by
    rw [isFor.states]
    exact getD_lt_of_inRange hp (arranged.mem_decision_lt (h.node_mem hl))
  have information : d.informationState l.node p = l.informationSet.map fun i => p.getD i 0 := by
    rw [isFor.informationSet]
    rfl
  have along : (localOf s.mark l).choiceOn? p =
      some (chosen s.mark l (l.informationSet.map fun i => p.getD i 0)) :=
    (LocalStrategy.choice?_observed observed).symm.trans (choice?_localOf fits observed)
  have choiceOn : (localOf s.mark l).choiceOn p =
      chosen s.mark l (l.informationSet.map fun i => p.getD i 0) := by
    rw [LocalStrategy.choiceOn, along, Option.getD_some]
  constructor
  · refine ⟨_, h.variableOn?_eq arranged small hl hp, ?_⟩
    rw [← Solution.mark_eq_one_iff, (choice.cell_eq h hl observed).2 _ own, choiceOn]
    split <;> simp_all
  · rw [along, choiceOn]
  · rw [information, choice?_localOf fits observed, choiceOn]
  · intro c
    rw [information, mem_rules_localOf, choiceOn]
    exact and_iff_right observed
  · intro c
    have named (q : List ℕ) : ((q.zip (localOf s.mark l).informationSet).map fun (s, j) =>
        StrategyReport.stateName d j s) = d.observedNames l.node q := by
      rw [Diagram.observedNames, ← isFor.informationSet]
      rfl
    rw [StrategyReport.ofLocal, List.mem_map]
    constructor
    · rintro ⟨⟨q, k⟩, rule, same⟩
      rcases mem_rules_localOf.mp rule with ⟨hq, rfl⟩
      rcases StrategyRule.mk.inj same with ⟨names, rfl⟩
      have observes := arranged.observedNames_inj (isFor.shape ▸ hq)
        (arranged.inRange_informationState hp l.node) ((named q).symm.trans names)
      rw [choiceOn, ← information, ← observes]
      rfl
    · rintro rfl
      refine ⟨(_, _), mem_rules_localOf.mpr ⟨observed, rfl⟩, ?_⟩
      rw [choiceOn, information, ← named]
      rfl

/-! ### Assignments of strategies -/

/-- The assignment of a strategy: at every state of the information of a decision node the variable
of the choice is one, and every other variable is zero. -/
def Strategy.IsAssignment (d : Diagram α) (z : DecisionVariables) (σ : Strategy)
    (s : Solution α) : Prop :=
  ∀ i q, (i, q) ∈ d.informationStates → ∀ k v, (z.groupAt i q)[k]? = some v →
    s.value v = if σ.choice? i q = some k then 1 else 0

variable {σ : Strategy}

section Covers

variable (covers : σ.Covers d) (h : LaidOut d z start) (arranged : d.Arranged)
  (assembled : d.phase ≠ .building) (small : z.vars.length < Word.count64)

include covers h arranged assembled small

omit [Scalar α] in
/-- The bits of a strategy choose what it chooses. -/
theorem choice?_eq_chosen {l : LocalVariables} (hl : l ∈ z.locals) {q : List ℕ}
    (hq : inRange l.shape q = true) :
    σ.choice? l.node q = some (chosen (bitsOf z.blocks (picksOf z σ)) l q) := by
  rw [Strategy.choice?, ← local?_strategyOf_bitsOf covers h arranged assembled
    (h.node_mem hl), h.local?_strategyOf arranged hl, Option.bind_some,
    choice?_localOf ((h.prod_le arranged hl).trans_lt small) hq]

/-- A variable of an assignment of a strategy is one exactly if its bit is. -/
theorem Strategy.IsAssignment.value_eq (assignment : σ.IsAssignment d z s) {v : ℕ}
    (hv : v ∈ z.vars) :
    s.value v = if bitsOf z.blocks (picksOf z σ) v = 1 then 1 else 0 := by
  have choice := isChoice_bitsOf h (picks_picksOf covers h arranged assembled)
  rcases List.mem_flatMap.mp hv with ⟨l, hl, hv⟩
  have isFor := h.locals l hl
  rcases LocalVariables.exists_cell isFor hv with ⟨q, k, hq, hk, rfl⟩
  have group : (z.groupAt l.node q)[k]? = some (l.cell q k) := by
    rw [h.groupAt_eq_map_cell arranged small hl hq, List.getElem?_map, List.getElem?_range hk]
    rfl
  have listed : (l.node, q) ∈ d.informationStates :=
    Diagram.mem_informationStates.mpr ⟨h.node_mem hl, isFor.shape ▸ hq⟩
  rw [assignment l.node q listed k _ group,
    choice?_eq_chosen covers h arranged assembled small hl hq, (choice.cell_eq h hl hq).2 k hk]
  simp [eq_comm]

theorem exists_isAssignment {size : ℕ} (inside : ∀ v ∈ z.vars, v < size) :
    ∃ values : Array α, values.size = size ∧
      ∀ objective, σ.IsAssignment d z ⟨values, objective⟩ := by
  refine ⟨Array.ofFn fun v : Fin size =>
    if bitsOf z.blocks (picksOf z σ) v = 1 then 1 else 0, Array.size_ofFn, fun objective => ?_⟩
  intro i q listed k v member
  rcases Diagram.mem_informationStates.mp listed with ⟨hi, hq⟩
  rcases h.exists_local hi with ⟨l, hl, rfl⟩
  have isFor := h.locals l hl
  rw [← isFor.shape] at hq
  rw [h.groupAt_eq_map_cell arranged small hl hq, List.getElem?_map,
    Option.map_eq_some_iff] at member
  rcases member with ⟨_, place, rfl⟩
  rcases List.getElem?_eq_some_iff.mp place with ⟨hk, rfl⟩
  rw [List.length_range] at hk
  rw [List.getElem_range]
  have own := inside _ (List.mem_flatMap.mpr ⟨l, hl, LocalVariables.cell_mem isFor hq hk⟩)
  have bit := (isChoice_bitsOf h (picks_picksOf covers h arranged assembled)).cell_eq h hl hq
  rw [choice?_eq_chosen covers h arranged assembled small hl hq, Solution.value,
    ← Array.getElem_eq_getD 0 (h := by simpa using own), Array.getElem_ofFn, bit.2 k hk]
  simp [eq_comm]

/-- A strategy is read back from its assignment. -/
theorem strategy_of_isAssignment [Scalar.HasUnits α] (assignment : σ.IsAssignment d z s) :
    ∃ τ, z.strategy s = .ok τ ∧ τ.IsFor d ∧ (∀ i ∈ d.decision, τ.local? i = σ.local? i) ∧
      (σ.IsFor d → τ = σ) := by
  have choice := isChoice_bitsOf h (picks_picksOf covers h arranged assembled)
  have isFor := choice.isFor_strategyOf h arranged assembled small
  have same (i : ℕ) (hi : i ∈ d.decision) :=
    local?_strategyOf_bitsOf covers h arranged assembled hi
  refine ⟨_, strategy_eq_ok_of_threshold choice h arranged small fun v hv => ?_, isFor, same,
    fun own => own.ext isFor arranged same⟩
  rw [assignment.value_eq covers h arranged assembled small hv]
  split
  case isTrue one => exact iff_of_true Scalar.HasUnits.half_le_one one
  case isFalse other => exact iff_of_false Scalar.HasUnits.not_half_le_zero other

end Covers

/-- The tables of choices agree.  The decision variables of a generated diagram add one one-hot
constraint per decision node and state of its information, in the order of the nodes and then
lexicographically.  A solution has a strategy exactly if every group has one variable that counts as
chosen; otherwise the first other group is reported with its number of such variables.  The
strategy is one for the diagram, and along every path all tables have one choice for every decision
node.  In the other direction every strategy has an assignment of zeros and ones, and it is read
back from each of its assignments unchanged. -/
theorem tables_agree [Scalar.HasUnits α] {names : Bool} {m₀ m : Program α} (attained : d.Attained)
    (built : Succeeds (build d names) m₀ z m) (small : m.vars.size < Word.count64) :
    (∃ vs, (∀ v ∈ vs, v.IsBit) ∧
      m₀.Grows m vs (d.informationStates.map fun e => oneHot (z.groupAt e.1 e.2))) ∧
    (d.informationStates.Pairwise Diagram.Before ∧ ∀ i q, (i, q) ∈ d.informationStates ↔
      i ∈ d.decision ∧ inRange (d.informationShape i) q = true) ∧
    (∀ s : Solution α,
      ((∃ σ, z.strategy s = .ok σ) ↔ ∀ e ∈ d.informationStates, z.activeAt s e = 1) ∧
      (∀ e, z.strategy s = .error e ↔
        ∃ i q, d.informationStates.find? (fun e => z.activeAt s e != 1) = some (i, q) ∧
          e = .infeasibleStrategy (d.nameOf i) q (z.activeAt s (i, q))) ∧
      ∀ σ, z.strategy s = .ok σ → σ.IsFor d ∧ ∀ i ∈ d.decision, ∃ l, σ.local? i = some l ∧
        StrategyReport.ofLocal d l ∈ (StrategyReport.ofStrategy d σ).decisions ∧
        ∀ p, inRange d.states p = true → SameChoice d z s i l p) ∧
    ∀ σ : Strategy, σ.Covers d →
      (∃ values : Array α, values.size = m.vars.size ∧
        ∀ objective, σ.IsAssignment d z ⟨values, objective⟩) ∧
      ∀ s, σ.IsAssignment d z s → ∃ τ, z.strategy s = .ok τ ∧ τ.IsFor d ∧
        (∀ i ∈ d.decision, τ.local? i = σ.local? i) ∧ (σ.IsFor d → τ = σ) := by
  have shaped := attained.shaped_of_isGenerated (isGenerated_of_build built)
  have assembled := shaped.assembled
  have arranged := shaped.arranged
  rcases succeeds_build_decisions built with ⟨h, vs, length, bits, grows⟩
  have few : z.vars.length < Word.count64 := by
    rw [grows.size, length] at small
    omega
  have inside (v : ℕ) (hv : v ∈ z.vars) : v < m.vars.size := by
    rw [h.vars, List.mem_range'_1] at hv
    rw [grows.size, length]
    exact hv.2
  have groups : z.blocks.map oneHot =
      d.informationStates.map fun e => (oneHot (z.groupAt e.1 e.2) : Constraint α) := by
    rw [h.blocks_eq_groups arranged few, List.map_map]
    rfl
  refine ⟨⟨vs, bits, groups ▸ grows⟩, ⟨arranged.pairwise_informationStates,
    fun i q => Diagram.mem_informationStates⟩, fun s => ⟨exists_strategy_iff h arranged,
    fun e => strategy_eq_error_iff h arranged, fun σ read => ?_⟩, fun σ covers =>
    ⟨exists_isAssignment covers h arranged assembled few inside,
      fun s => strategy_of_isAssignment covers h arranged assembled few⟩⟩
  obtain ⟨choice, rfl⟩ := eq_strategyOf_mark h arranged few read
  refine ⟨choice.isFor_strategyOf h arranged assembled few, fun i hi => ?_⟩
  rcases h.exists_local hi with ⟨l, hl, rfl⟩
  refine ⟨_, h.local?_strategyOf arranged hl, ?_, fun p hp =>
    sameChoice h arranged few choice hl hp⟩
  exact List.mem_map_of_mem (List.mem_map_of_mem hl)

end Agreement

theorem isFor_informed : Strategy.informed.IsFor tipped where
  nodes := by decide +kernel
  locals l hl := by
    obtain rfl := List.mem_singleton.mp hl
    exact LocalStrategy.isFor_of_toOption (by decide +kernel) (by decide +kernel)

/-- A solution with two answers to tails. -/
def twofold : Solution Float := ⟨#[1, 1, 0, 1], 0⟩

/-- Betting on heads only is read back from its assignment, and two answers to tails are
reported. -/
theorem tables_agree_tipped : tipped.Attained ∧ ∃ z m,
    Succeeds (DecisionVariables.build tipped true) .empty z m ∧ m.vars.size < Word.count64 ∧
    (∃ s, Strategy.informed.IsAssignment tipped z s ∧ z.strategy s = .ok Strategy.informed) ∧
    z.strategy twofold = .error (.infeasibleStrategy "bet" [0] 2) := by
  have attained : tipped.Attained :=
    DiagramFile.attained_of_build (except_eq_ok_of_isOk _ (by decide +kernel))
  have runs : succeedsWith (DecisionVariables.build tipped true) .empty (fun z m =>
      decide (m.vars.size = 4) &&
        decide (tipped.informationStates.find? (fun e => z.activeAt twofold e != 1) =
          some (1, [0])) && decide (z.activeAt twofold (1, [0]) = 2)) = true := by
    decide +kernel
  rcases exists_succeeds runs with ⟨z, m, built, checks⟩
  simp only [Bool.and_eq_true, decide_eq_true_eq] at checks
  rcases checks with ⟨⟨size, first⟩, two⟩
  have small : m.vars.size < Word.count64 := by
    rw [size]
    decide
  rcases tables_agree attained built small with ⟨-, -, read, back⟩
  have arranged := (attained.shaped (by decide +kernel)).arranged
  rcases back _ (isFor_informed.covers arranged) with ⟨⟨values, -, assignment⟩, unchanged⟩
  rcases unchanged _ (assignment 0) with ⟨τ, run, -, -, same⟩
  rw [same isFor_informed] at run
  refine ⟨attained, z, m, built, small, ⟨⟨values, 0⟩, assignment 0, run⟩, ?_⟩
  refine ((read _).2.1 _).mpr ⟨1, [0], first, ?_⟩
  rw [two]
  have name : tipped.nameOf 1 = "bet" := by decide +kernel
  rw [name]

end Influence
