import Mathlib.Data.List.Forall2
import Mathlib.Data.List.Induction
import Influence.Proofs.JsonText
import Influence.Proofs.LogHistory

/-!
# The run and the stage of log records

A trace keeps no history, only the open spans with what they know by now.  Each step keeps `Tracks`,
which ties these spans to the steps that they were entered at; from it every record has the run of
its event, or else the run that the event inherits, and just so the stage, although both are looked
up by one walk that stops early (`LogTrace.jsonLines_correlated`).
-/

namespace Influence

open LogFields LogStep

/-! ## Parts of a correlation -/

/-- A part of a correlation, which fields of one name tell. -/
structure Correlation.IsPart (get : Correlation → Option String) (name : String) : Prop where
  unknown : get .unknown = none
  absorb : ∀ c fields, get (absorb c fields) = (lastText? fields name).or (get c)
  complete : ∀ c others, get (complete c others) = (get c).or (others.findSome? get)

namespace Correlation

/-- Although the walk over the spans stops when both parts are known, each part comes from the
first that knows it. -/
theorem complete_eq (c : Correlation) (others : List Correlation) : c.complete others =
    ⟨c.runId.or (others.findSome? (·.runId)), c.stage.or (others.findSome? (·.stage))⟩ := by
  induction others generalizing c with
  | nil => simp [complete]
  | cons other others ih =>
    rw [complete]
    split
    case isTrue full =>
      obtain ⟨runId, stage⟩ := c
      rw [Bool.and_eq_true, Option.isSome_iff_exists, Option.isSome_iff_exists] at full
      obtain ⟨⟨r, rfl⟩, ⟨s, rfl⟩⟩ := full
      rfl
    case isFalse =>
      rw [ih, List.findSome?_cons, List.findSome?_cons, Option.or_assoc, Option.or_assoc]
      cases other.runId <;> cases other.stage <;> rfl

theorem isPart_runId : IsPart (·.runId) "run_id" where
  unknown := rfl
  absorb c fields := congrArg (Option.or · c.runId) (text?_collect fields "run_id")
  complete c others := congrArg (·.runId) (complete_eq c others)

theorem isPart_stage : IsPart (·.stage) "stage" where
  unknown := rfl
  absorb c fields := congrArg (Option.or · c.stage) (text?_collect fields "stage")
  complete c others := congrArg (·.stage) (complete_eq c others)

end Correlation

open Correlation

/-! ## Open spans and the steps that they were entered at -/

/-- The open span was entered at step `i` and knows by now what it was told last. -/
structure OpenSpan.Tracked (steps : List LogStep) (i : ℕ) (s : OpenSpan) : Prop where
  entered : ∃ span, steps[i]? = some (.enter span) ∧ span.declared = s.declared
  known : ∀ {get : Correlation → Option String} {name : String}, IsPart get name → ∀ v,
    get s.known = some v ↔ Knows steps name i steps.length v

namespace OpenSpan.Tracked

variable {steps : List LogStep} {step : LogStep} {i : ℕ} {s : OpenSpan}

theorem lt_length (h : Tracked steps i s) : i < steps.length := by
  obtain ⟨span, entered, -⟩ := h.entered
  exact (List.getElem?_eq_some_iff.mp entered).1

/-- A step that tells the span nothing. -/
theorem keep (h : Tracked steps i s)
    (silent : ∀ name v, ¬ Tells (steps ++ [step]) name i steps.length v) :
    Tracked (steps ++ [step]) i s where
  entered := by
    rw [List.getElem?_append_left h.lt_length]
    exact h.entered
  known {get name} part v := by
    rw [h.known part, List.length_append, List.length_singleton, knows_concat,
      or_iff_right (silent name v), and_iff_right (silent name)]

/-- What is recorded on the innermost span is what it knows from then on. -/
theorem record (h : Tracked steps i s) (innermost : IsInnermost steps i steps.length)
    (fields : List (String × Document)) :
    Tracked (steps ++ [.record fields]) i (s.record fields) where
  entered := by
    rw [List.getElem?_append_left h.lt_length]
    exact h.entered
  known {get name} part v := by
    obtain ⟨span, entered, declared⟩ := h.entered
    have told (v : String) : Tells (steps ++ [.record fields]) name i steps.length v ↔
        name ∈ s.declared ∧ lastText? fields name = some v := by
      have now : (steps ++ [LogStep.record fields])[steps.length]? = some (.record fields) :=
        List.getElem?_concat_length
      have before := h.lt_length
      constructor
      · intro tells
        cases tells with
        | enter => exact absurd before (lt_irrefl _)
        | record entered' recorded _ declared' told =>
          rw [List.getElem?_append_left before, entered, Option.some.injEq,
            LogStep.enter.injEq] at entered'
          rw [now, Option.some.injEq, LogStep.record.injEq] at recorded
          exact ⟨declared ▸ entered' ▸ declared', recorded ▸ told⟩
      · rintro ⟨declared', told⟩
        have still : (steps ++ [LogStep.record fields])[i]? = some (.enter span) := by
          rw [List.getElem?_append_left before, entered]
        exact .record still now ((isInnermost_append _ le_rfl).mpr innermost)
          (declared ▸ declared') told
    rw [List.length_append, List.length_singleton, knows_concat]
    simp only [told]
    rw [OpenSpan.record, part.absorb, lastText?_filter, ← h.known part]
    split
    case isTrue mem => cases lastText? fields name <;> simp [mem]
    case isFalse notMem => simp [notMem]

/-- A span knows from the start what it is entered with. -/
theorem ofSpan (span : Span) :
    Tracked (steps ++ [.enter span]) steps.length (OpenSpan.ofSpan span) where
  entered := ⟨span, List.getElem?_concat_length, rfl⟩
  known {get name} part v := by
    have now : (steps ++ [LogStep.enter span])[steps.length]? = some (.enter span) :=
      List.getElem?_concat_length
    have told (v : String) : Tells (steps ++ [.enter span]) name steps.length steps.length v ↔
        name ∈ span.declared ∧ lastText? span.fields name = some v := by
      constructor
      · intro tells
        cases tells with
        | enter entered declared told =>
          rw [now, Option.some.injEq, LogStep.enter.injEq] at entered
          subst entered
          exact ⟨declared, told⟩
        | record _ _ innermost => exact absurd innermost.1.before (lt_irrefl _)
      · rintro ⟨declared, told⟩
        exact .enter now declared told
    have fresh : ¬ Knows steps name steps.length steps.length v := by
      rintro ⟨j, hj, tells, -⟩
      exact absurd tells.le (not_le.mpr hj)
    rw [List.length_append, List.length_singleton, knows_concat, or_iff_left fun h => fresh h.2,
      told, OpenSpan.ofSpan, OpenSpan.record, part.absorb, part.unknown, Option.or_none,
      lastText?_filter]
    split
    case isTrue mem => simp [mem]
    case isFalse notMem => simp [notMem]

end OpenSpan.Tracked

/-! ## The trace -/

/-- The open spans are those that were entered at some steps, later ones further inside. -/
structure LogTrace.Tracks (steps : List LogStep) (opens : List ℕ) (scope : List OpenSpan) :
    Prop where
  depth : depth steps = opens.length
  descending : opens.Pairwise (· > ·)
  isOpen : ∀ i, i ∈ opens ↔ IsOpen steps i steps.length
  /-- The depth at which a span was entered is the number of spans around it. -/
  level : ∀ m i, opens[m]? = some i → LogStep.depth (steps.take i) + m + 1 = opens.length
  tracked : List.Forall₂ (OpenSpan.Tracked steps) opens scope

namespace LogTrace

variable {steps : List LogStep} {opens : List ℕ} {scope : List OpenSpan}

namespace Tracks

theorem lt_length (h : Tracks steps opens scope) {i : ℕ} (hi : i ∈ opens) : i < steps.length :=
  ((h.isOpen i).mp hi).lt_length

/-- Entry depths do not depend on later steps. -/
theorem level_concat (h : Tracks steps opens scope) (step : LogStep) {m i : ℕ}
    (hi : opens[m]? = some i) :
    LogStep.depth ((steps ++ [step]).take i) + m + 1 = opens.length := by
  rw [List.take_append_of_le_length (h.lt_length (List.mem_of_getElem? hi)).le]
  exact h.level m i hi

theorem tracked_concat (h : Tracks steps opens scope) {step : LogStep}
    (silent : ∀ i ∈ opens, ∀ name v, ¬ Tells (steps ++ [step]) name i steps.length v) :
    List.Forall₂ (OpenSpan.Tracked (steps ++ [step])) opens scope := by
  have tracked := h.tracked
  clear h
  induction tracked with
  | nil => exact .nil
  | cons first _ ih =>
    refine .cons (first.keep (silent _ List.mem_cons_self)) (ih fun i hi => ?_)
    exact silent i (List.mem_cons_of_mem _ hi)

/-- The first open span is the innermost. -/
theorem isInnermost_head {i : ℕ} (h : Tracks steps (i :: opens) scope) :
    IsInnermost steps i steps.length := by
  refine ⟨(h.isOpen i).mp List.mem_cons_self, fun j hj isOpen => ?_⟩
  rcases List.mem_cons.mp ((h.isOpen j).mpr isOpen) with rfl | mem
  · exact hj.false
  · exact hj.asymm ((List.pairwise_cons.mp h.descending).1 j mem)

theorem nil : Tracks [] [] [] where
  depth := rfl
  descending := .nil
  isOpen i := by
    refine iff_of_false List.not_mem_nil fun h => ?_
    exact absurd h.lt_length (Nat.not_lt_zero i)
  level := nofun
  tracked := .nil

theorem enter (h : Tracks steps opens scope) (span : Span) :
    Tracks (steps ++ [.enter span]) (steps.length :: opens) (OpenSpan.ofSpan span :: scope) where
  depth := by rw [depth_concat, List.length_cons, h.depth]
  descending := List.pairwise_cons.mpr ⟨fun i hi => h.lt_length hi, h.descending⟩
  isOpen i := by
    rw [List.length_append, List.length_singleton, isOpen_concat, List.mem_cons, h.isOpen,
      depth_concat]
    refine or_congr (and_iff_left ⟨span, rfl⟩).symm (and_iff_left_of_imp fun isOpen => ?_).symm
    have inside := isOpen.inside steps.length isOpen.before le_rfl
    rw [List.take_length] at inside
    exact Nat.lt_succ_of_lt inside
  level m i hi := by
    cases m with
    | zero =>
      obtain rfl := Option.some.inj hi
      rw [List.take_append_of_le_length le_rfl, List.take_length, h.depth]
      rfl
    | succ m =>
      have level := h.level_concat (.enter span) hi
      rw [List.length_cons]
      omega
  tracked := .cons (.ofSpan span)
    (h.tracked_concat fun _ hi _ _ => not_tells_concat (h.lt_length hi) nofun)

theorem leave (h : Tracks steps opens scope) :
    Tracks (steps ++ [.leave]) opens.tail scope.tail where
  depth := by rw [depth_concat, List.length_tail, h.depth]
  descending := h.descending.sublist (List.tail_sublist opens)
  isOpen i := by
    rw [List.length_append, List.length_singleton, isOpen_concat, depth_concat]
    dsimp only
    rw [or_iff_right (by rintro ⟨-, span, hs⟩; cases hs), ← h.isOpen, h.depth]
    cases opens with
    | nil => simp
    | cons k rest =>
      have outer := h.level 0 k rfl
      rw [List.length_cons] at outer
      constructor
      · intro hi
        obtain ⟨m, hm⟩ := List.getElem?_of_mem hi
        have level := h.level (m + 1) i hm
        rw [List.length_cons] at level ⊢
        exact ⟨List.mem_cons_of_mem k hi, by omega⟩
      · rintro ⟨hi, inside⟩
        rcases List.mem_cons.mp hi with rfl | hi
        · rw [List.length_cons] at inside
          omega
        · exact hi
  level m i hi := by
    cases opens with
    | nil => cases hi
    | cons k rest =>
      have level := h.level_concat .leave (m := m + 1) hi
      rw [List.length_cons] at level
      rw [List.tail_cons]
      omega
  tracked := by
    have all : List.Forall₂ (OpenSpan.Tracked (steps ++ [.leave])) opens scope :=
      h.tracked_concat fun _ hi _ _ => not_tells_concat (h.lt_length hi) nofun
    cases all with
    | nil => exact .nil
    | cons _ rest => exact rest

/-- Whatever leaves the depth alone leaves the same spans open. -/
theorem stay (h : Tracks steps opens scope) {step : LogStep} {scope' : List OpenSpan}
    (depth : LogStep.depth (steps ++ [step]) = LogStep.depth steps)
    (other : ¬ ∃ span, step = .enter span)
    (tracked : List.Forall₂ (OpenSpan.Tracked (steps ++ [step])) opens scope') :
    Tracks (steps ++ [step]) opens scope' where
  depth := depth.trans h.depth
  descending := h.descending
  isOpen i := by
    rw [List.length_append, List.length_singleton, isOpen_concat, or_iff_right fun h => other h.2,
      depth, h.isOpen]
    refine (and_iff_left_of_imp fun isOpen => ?_).symm
    have inside := isOpen.inside steps.length isOpen.before le_rfl
    rwa [List.take_length] at inside
  level _ _ hi := h.level_concat step hi
  tracked := tracked

theorem record (h : Tracks steps opens scope) (fields : List (String × Document)) :
    Tracks (steps ++ [.record fields]) opens (scope.modifyHead (·.record fields)) := by
  refine h.stay depth_concat nofun ?_
  cases opens with
  | nil =>
    obtain rfl := List.forall₂_nil_left_iff.mp h.tracked
    exact .nil
  | cons i rest =>
    obtain ⟨s, scope, first, others, rfl⟩ := List.forall₂_cons_left_iff.mp h.tracked
    refine .cons (first.record h.isInnermost_head fields) ?_
    have around := (List.pairwise_cons.mp h.descending).1
    have silent : ∀ j ∈ rest, ∀ name v,
        ¬ Tells (steps ++ [.record fields]) name j steps.length v := by
      intro j hj name v tells
      cases tells with
      | enter => exact absurd (h.lt_length (List.mem_cons_of_mem i hj)) (lt_irrefl _)
      | record _ _ innermost =>
        -- A span around the innermost one is not told.
        exact innermost.2 i (around j hj)
          ((isOpen_append _ le_rfl).mpr ((h.isOpen i).mp List.mem_cons_self))
    clear h first around
    induction others with
    | nil => exact .nil
    | cons next _ ih =>
      refine .cons (next.keep (silent _ List.mem_cons_self)) (ih fun j hj => ?_)
      exact silent j (List.mem_cons_of_mem _ hj)

theorem event (h : Tracks steps opens scope) (e : LogEvent) :
    Tracks (steps ++ [.event e]) opens scope :=
  h.stay depth_concat nofun
    (h.tracked_concat fun _ hi _ _ => not_tells_concat (h.lt_length hi) nofun)

end Tracks

theorem ofSteps_concat (steps : List LogStep) (step : LogStep) :
    ofSteps (steps ++ [step]) = (ofSteps steps).step step := by
  rw [ofSteps, List.foldl_append]
  rfl

/-- The open spans of a trace are tracked. -/
theorem tracks_ofSteps (steps : List LogStep) :
    ∃ opens, Tracks steps opens (ofSteps steps).scope := by
  induction steps using List.reverseRecOn with
  | nil => exact ⟨[], .nil⟩
  | append_singleton steps step ih =>
    obtain ⟨opens, h⟩ := ih
    rw [ofSteps_concat]
    cases step with
    | enter span => exact ⟨_, h.enter span⟩
    | record fields => exact ⟨_, h.record fields⟩
    | leave => exact ⟨_, h.leave⟩
    | event e => exact ⟨_, h.event e⟩

/-- What the walk over the open spans finds is what an event inherits. -/
theorem Tracks.findSome?_eq_some_iff (h : Tracks steps opens scope)
    {get : Correlation → Option String} {name : String} (part : IsPart get name) {v : String} :
    (scope.map (·.known)).findSome? get = some v ↔ Inherits steps name steps.length v := by
  have walk : (scope.map (·.known)).findSome? get = some v ↔ ∃ i ∈ opens,
      Knows steps name i steps.length v ∧
        ∀ i' ∈ opens, i < i' → ∀ v', ¬ Knows steps name i' steps.length v' := by
    have descending := h.descending
    have tracked := h.tracked
    clear h
    induction tracked with
    | nil => simp
    | @cons i s opens scope first _ ih =>
      obtain ⟨around, descending⟩ := List.pairwise_cons.mp descending
      have known := first.known part
      rw [List.map_cons, List.findSome?_cons]
      cases found : get s.known with
      | some u =>
        have own := (known u).mp found
        constructor
        · intro same
          refine ⟨i, List.mem_cons_self, Option.some.inj same ▸ own, fun i' hi' later => ?_⟩
          rcases List.mem_cons.mp hi' with rfl | hi'
          · exact absurd later (lt_irrefl _)
          · exact absurd (around i' hi') (by omega)
        · rintro ⟨k, hk, knows, last⟩
          rcases List.mem_cons.mp hk with rfl | hk
          · exact found.symm.trans ((known v).mpr knows)
          · exact absurd own (last i List.mem_cons_self (around k hk) u)
      | none =>
        have silent (u : String) : ¬ Knows steps name i steps.length u := by
          intro knows
          rw [(known u).mpr knows] at found
          cases found
        refine (ih descending).trans ?_
        constructor
        · rintro ⟨k, hk, knows, last⟩
          refine ⟨k, List.mem_cons_of_mem i hk, knows, fun i' hi' later => ?_⟩
          rcases List.mem_cons.mp hi' with rfl | hi'
          · exact silent
          · exact last i' hi' later
        · rintro ⟨k, hk, knows, last⟩
          rcases List.mem_cons.mp hk with rfl | hk
          · exact absurd knows (silent v)
          · exact ⟨k, hk, knows, fun i' hi' => last i' (List.mem_cons_of_mem i hi')⟩
  rw [walk]
  simp only [h.isOpen]
  exact exists_congr fun i => and_congr_right fun _ => and_congr_right fun _ =>
    forall_congr' fun i' => forall_comm

/-! ## Records -/

theorem length_entries (steps : List LogStep) :
    (ofSteps steps).entries.length = eventCount steps := by
  induction steps using List.reverseRecOn with
  | nil => rfl
  | append_singleton steps step ih =>
    rw [ofSteps_concat, eventCount, List.countP_append, ← eventCount, ← ih]
    cases step <;> rfl

/-- The entry of an event stands where as many entries are in front of it as events were before,
and has what the spans knew that were open then. -/
theorem entries_getElem? {k : ℕ} {e : LogEvent} (h : steps[k]? = some (.event e)) :
    (ofSteps steps).entries.reverse[eventCount (steps.take k)]? =
      some ((ofSteps (steps.take k)).scope.map (·.known), e) := by
  induction steps using List.reverseRecOn with
  | nil => cases h
  | append_singleton steps step ih =>
    have hk := (List.getElem?_eq_some_iff.mp h).1
    rw [List.length_append, List.length_singleton] at hk
    rcases Nat.lt_succ_iff_lt_or_eq.mp hk with hk | rfl
    · rw [List.getElem?_append_left hk] at h
      rw [List.take_append_of_le_length hk.le, ofSteps_concat]
      have before := ih h
      cases step with
      | event e' =>
        rw [LogTrace.step, List.reverse_cons, List.getElem?_append_left]
        · exact before
        · exact (List.getElem?_eq_some_iff.mp before).1
      | _ => exact before
    · rw [List.getElem?_concat_length, Option.some.injEq] at h
      subst h
      rw [List.take_append_of_le_length le_rfl, List.take_length, ofSteps_concat, LogTrace.step,
        List.reverse_cons, ← length_entries, ← List.length_reverse, List.getElem?_concat_length]

end LogTrace

/-- What the record of the event at step `k` says. -/
structure LogRecord.IsOf (steps : List LogStep) (k : ℕ) (e : LogEvent) (r : LogRecord) : Prop where
  level : r.level = e.level.text
  event : r.event = (lastText? e.fields "event").getD e.source
  message : r.message = lastText? e.fields "message"
  /-- The run is the event's own, or else the one that it inherits. -/
  runId : ∀ v, r.runId = some v ↔ lastText? e.fields "run_id" = some v ∨
    lastText? e.fields "run_id" = none ∧ Inherits steps "run_id" k v
  /-- The stage is the event's own, or else the one that it inherits. -/
  stage : ∀ v, r.stage = some v ↔ lastText? e.fields "stage" = some v ∨
    lastText? e.fields "stage" = none ∧ Inherits steps "stage" k v
  ascending : r.fields.Pairwise fun a b => a.1 < b.1
  /-- What stands at the top is not among the other fields, and each of these has the value that
  it was given last. -/
  fields : ∀ name, r.fields.lookup name =
    if name ∈ LogRecord.lifted then none else lastValue? e.fields name

namespace LogTrace

variable {steps : List LogStep}

/-- A part of the record of an event is the event's own, or else inherited. -/
theorem part_complete {get : Correlation → Option String} {name : String} (part : IsPart get name)
    {k : ℕ} (hk : k ≤ steps.length) (e : LogEvent) (v : String) :
    get ((Correlation.unknown.absorb e.fields).complete
        ((ofSteps (steps.take k)).scope.map (·.known))) = some v ↔
      lastText? e.fields name = some v ∨
        lastText? e.fields name = none ∧ Inherits steps name k v := by
  obtain ⟨opens, tracks⟩ := tracks_ofSteps (steps.take k)
  have inherits := tracks.findSome?_eq_some_iff part (v := v)
  rw [List.length_take_of_le hk] at inherits
  have history : Inherits (steps.take k ++ steps.drop k) name k v ↔ _ :=
    inherits_append (steps.drop k) (List.length_take_of_le hk).ge
  rw [List.take_append_drop] at history
  rw [part.complete, part.absorb, part.unknown, Option.or_none, history, ← inherits]
  cases lastText? e.fields name <;> simp

/-- Every event takes one line, and there are no others: the line of an event stands where as many
lines are in front of it as events were before.  It is the record of the event, whatever was
entered, recorded and left in the meantime. -/
theorem jsonLines_correlated (steps : List LogStep) (time : String) :
    ((ofSteps steps).jsonLines time).length = eventCount steps ∧
    (∀ line ∈ (ofSteps steps).jsonLines time, '\n' ∉ line.toList) ∧
    ∀ k e, steps[k]? = some (.event e) → ∃ r : LogRecord,
      ((ofSteps steps).jsonLines time)[eventCount (steps.take k)]? = some r.line ∧
        r.time = time ∧ r.IsOf steps k e := by
  refine ⟨?_, fun line hl => ?_, fun k e hk => ?_⟩
  · rw [jsonLines, records, List.length_map, List.length_map, List.length_reverse, length_entries]
  · obtain ⟨r, -, rfl⟩ := List.mem_map.mp hl
    exact Json.lineFeed_notMem_compact r.document
  · have inside := (List.getElem?_eq_some_iff.mp hk).1
    refine ⟨e.record time ((ofSteps (steps.take k)).scope.map (·.known)), ?_, rfl, ?_⟩
    · rw [jsonLines, records, List.getElem?_map, List.getElem?_map, entries_getElem? hk]
      rfl
    · exact {
        level := rfl
        event := congrArg (Option.getD · e.source) (text?_collect e.fields "event")
        message := text?_collect e.fields "message"
        runId := part_complete isPart_runId inside.le e
        stage := part_complete isPart_stage inside.le e
        ascending := (ascending_collect e.fields).sublist List.filter_sublist
        fields := fun name => by
          have kept := lookup_filter_key (fun name => !LogRecord.lifted.contains name)
            (collect e.fields) name
          rw [lookup_collect] at kept
          refine kept.trans ?_
          by_cases lifted : name ∈ LogRecord.lifted <;> simp [lifted] }

/-- An event in a span for its stage, inside the span of a run. -/
def solved : List LogStep :=
  [.enter ⟨["run_id", "stage"], [("run_id", .text "run-1")]⟩, .enter ⟨["stage"], []⟩,
    .record [("run_id", .text "run-2"), ("stage", .text "solve")],
    .event ⟨.info, "dp_core", [("message", .text "solved"), ("objective", .integer 31)]⟩]

/-- The inner span was not declared with a run and does not take one; the outer one has it. -/
theorem jsonLines_correlated_solved :
    (ofSteps solved).jsonLines "now" = ["\x7b\"ts\":\"now\",\"level\":\"info\"," ++
      "\"event\":\"dp_core\",\"run_id\":\"run-1\",\"stage\":\"solve\"," ++
      "\"message\":\"solved\",\"fields\":\x7b\"objective\":31\x7d\x7d"] ∧
    ∃ r : LogRecord, ((ofSteps solved).jsonLines "now")[0]? = some r.line ∧ r.time = "now" ∧
      r.IsOf solved 3 ⟨.info, "dp_core", [("message", .text "solved"), ("objective", .integer 31)]⟩ :=
  ⟨by decide +kernel, (jsonLines_correlated solved "now").2.2 3 _ rfl⟩

end LogTrace

end Influence
