import Mathlib.Data.List.TakeWhile
import Influence.Proofs.SeparableSearch

/-!
# Answers of the search

Whatever constraints a program has, what the search answers with is an assignment that passes every
check up to the tolerance of the search, and no candidate that counts beats it by more than that
(`solve_sound`).  How many continuous variables a constraint names does not matter here: a candidate
counts only if every constraint is satisfied.

Bounds are not checked again after a variable is settled.  They need not be: constraints only cut the
interval of a variable down (`cut_foldl_confine`), and of an interval that is empty by no more than
the tolerance either end lies within the tolerance of the bounds (`within_of_pick?`).
-/

namespace Influence

open Extended Program Search

namespace Search

variable {m : Program Exact} {tolerance : Exact}

/-! ## Intervals that are cut down -/

private theorem le_trans_exact {a b c : Exact} (h : a ≤ b) (h' : b ≤ c) : a ≤ c := by
  cases a <;> cases b <;> cases c <;> first
    | exact le_trans (α := ℚ) h h'
    | trivial

/-- An interval inside another one, each end of which is finite or infinite on its own side. -/
structure Cut (start bounds : Exact × Exact) : Prop where
  low : bounds.1 < top
  high : bottom < bounds.2
  lower : start.1 ≤ bounds.1
  upper : bounds.2 ≤ start.2

private theorem le_self_of_lt_top {low : Exact} (below : low < top) : low ≤ low := by
  cases low with
  | finite x => exact le_refl x
  | bottom => trivial
  | top => exact below.elim
  | notANumber => exact below.elim

private theorem le_self_of_bottom_lt {high : Exact} (above : bottom < high) : high ≤ high := by
  cases high with
  | finite x => exact le_refl x
  | top => trivial
  | bottom => exact above.elim
  | notANumber => exact above.elim

private theorem raised {low : Exact} (below : low < top) (up : Bool) (l : ℚ) :
    (if up then Scalar.larger low (finite l) else low) < top ∧
      low ≤ if up then Scalar.larger low (finite l) else low := by
  cases up with
  | false => exact ⟨below, le_self_of_lt_top below⟩
  | true =>
    rw [if_pos rfl]
    cases low with
    | finite x =>
      rw [larger_finite]
      exact ⟨trivial, le_max_left x l⟩
    | bottom => exact ⟨trivial, trivial⟩
    | top => exact below.elim
    | notANumber => exact below.elim

private theorem lowered {high : Exact} (above : bottom < high) (down : Bool) (l : ℚ) :
    bottom < (if down then Scalar.smaller high (finite l) else high) ∧
      (if down then Scalar.smaller high (finite l) else high) ≤ high := by
  cases down with
  | false => exact ⟨above, le_self_of_bottom_lt above⟩
  | true =>
    rw [if_pos rfl]
    cases high with
    | finite x =>
      rw [smaller_finite]
      exact ⟨trivial, min_le_left x l⟩
    | top => exact ⟨trivial, trivial⟩
    | bottom => exact above.elim
    | notANumber => exact above.elim

/-- Constraints cut an interval down. -/
theorem cut_foldl_confine {values : Array Exact} {v : ℕ} {a : ℕ → ℚ}
    {cs : List (Constraint Exact × Exact)} (readable : ∀ e ∈ cs, Readable values v a e)
    {start bounds : Exact × Exact} (cut : Cut start bounds) :
    Cut start (cs.foldl (fun b e => confine values v b e.1 e.2) bounds) := by
  induction cs generalizing bounds with
  | nil => exact cut
  | cons e cs ih =>
    obtain ⟨first, rest⟩ := List.forall_mem_cons.mp readable
    obtain ⟨low, lower⟩ := raised cut.low (holdsUp e.1.sense e.2) (limitAt e.1 v e.2 a)
    obtain ⟨high, upper⟩ := lowered cut.high (holdsDown e.1.sense e.2) (limitAt e.1 v e.2 a)
    refine ih rest ?_
    dsimp only
    rw [confine_eq bounds first.normal first.term first.values]
    exact ⟨low, high, le_trans_exact cut.lower lower, le_trans_exact upper cut.upper⟩

/-! ## Values that are picked -/

/-- A finite number that leaves the interval by no more than the tolerance. -/
structure Within (bounds : Exact × Exact) (tolerance x : Exact) : Prop where
  isFinite : Scalar.isFinite x = true
  lower : bounds.1 - tolerance ≤ x
  upper : x ≤ bounds.2 + tolerance

theorem pick?_eq_some {preference x : Exact} {bounds : Exact × Exact}
    (h : pick? preference bounds = some x) :
    (x = bounds.2 ∧ Scalar.isFinite bounds.2 = true) ∨
      (x = bounds.1 ∧ Scalar.isFinite bounds.1 = true) ∨
      (x = 0 ∧ Scalar.isFinite bounds.1 = false ∧ Scalar.isFinite bounds.2 = false) := by
  unfold pick? at h
  dsimp only at h
  split_ifs at h with up down none high low
  · simp only [Bool.and_eq_true] at up
    exact .inl ⟨(Option.some.inj h).symm, up.2⟩
  · simp only [Bool.and_eq_true] at down
    exact .inr (.inl ⟨(Option.some.inj h).symm, down.2⟩)
  · exact .inl ⟨(Option.some.inj h).symm, high⟩
  · exact .inr (.inl ⟨(Option.some.inj h).symm, low⟩)
  · exact .inr (.inr ⟨(Option.some.inj h).symm, by simpa using low, by simpa using high⟩)

/-- The lower bound stays within the tolerance of an upper end that has crossed it. -/
private theorem sub_le_of_proper {start low : Exact} {h : ℚ} (below : low < top)
    (lower : start ≤ low) (nonneg : 0 ≤ tolerance) (proper : ¬ finite h + tolerance < low) :
    start - tolerance ≤ finite h := by
  cases start <;> cases low <;> cases tolerance <;> try first
    | trivial
    | exact absurd trivial proper
  case finite.finite.finite s l t =>
    rw [finite_add, finite_lt, not_lt] at proper
    rw [finite_sub, finite_le]
    have order : s ≤ l := lower
    linarith

/-- The upper bound stays within the tolerance of a lower end that has crossed it. -/
private theorem le_add_of_proper {stop high : Exact} {l : ℚ} (above : bottom < high)
    (upper : high ≤ stop) (nonneg : 0 ≤ tolerance) (proper : ¬ high + tolerance < finite l) :
    finite l ≤ stop + tolerance := by
  cases stop <;> cases high <;> cases tolerance <;> try first
    | trivial
    | exact absurd trivial proper
  case finite.finite.finite u h t =>
    rw [finite_add, finite_lt, not_lt] at proper
    rw [finite_add, finite_le]
    have order : h ≤ u := upper
    linarith

private theorem not_lt_add_self {x : ℚ} (nonneg : 0 ≤ tolerance) :
    ¬ finite x + tolerance < finite x := by
  cases tolerance with
  | finite t =>
    have := finite_le 0 t |>.mp nonneg
    rw [finite_add, finite_lt, not_lt]
    linarith
  | top => exact id
  | bottom => exact nonneg.elim
  | notANumber => exact nonneg.elim

/-- What is picked of an interval that is not empty by more than the tolerance. -/
theorem within_of_pick? {start bounds : Exact × Exact} (cut : Cut start bounds)
    (nonneg : 0 ≤ tolerance) (proper : ¬ bounds.2 + tolerance < bounds.1) {preference x : Exact}
    (h : pick? preference bounds = some x) : Within start tolerance x := by
  obtain ⟨low, high⟩ := bounds
  obtain ⟨below, above, lower, upper⟩ := cut
  dsimp only at below above lower upper proper
  rcases pick?_eq_some h with ⟨rfl, isFinite⟩ | ⟨rfl, isFinite⟩ | ⟨rfl, lowOpen, highOpen⟩
  · dsimp only at isFinite ⊢
    rw [← finite_rational isFinite] at above upper proper ⊢
    refine ⟨rfl, sub_le_of_proper below lower nonneg proper, ?_⟩
    exact le_add_of_proper above upper nonneg (not_lt_add_self nonneg)
  · dsimp only at isFinite ⊢
    rw [← finite_rational isFinite] at below lower proper ⊢
    refine ⟨rfl, ?_, le_add_of_proper above upper nonneg proper⟩
    exact sub_le_of_proper below lower nonneg (not_lt_add_self nonneg)
  · obtain rfl : low = bottom := by
      cases low with
      | bottom => rfl
      | finite l => cases lowOpen
      | top => exact below.elim
      | notANumber => exact below.elim
    obtain rfl : high = top := by
      cases high with
      | top => rfl
      | finite h => cases highOpen
      | bottom => exact above.elim
      | notANumber => exact above.elim
    refine ⟨rfl, sub_le_of_proper below lower nonneg ?_, le_add_of_proper above upper nonneg ?_⟩
    · cases tolerance <;> exact id
    · cases tolerance <;> exact id

/-! ## Settling -/

/-- Settling one variable after the other: what each comes to stays. -/
theorem settleAll_spec {Q : Array Exact → Prop} {P : Settling Exact → Exact → Prop}
    {ss : List (Settling Exact)} (distinct : (ss.map (·.index)).Nodup)
    (step : ∀ s ∈ ss, ∀ values values', Q values →
      s.settle tolerance values = .ok (some values') →
        Q values' ∧ P s (values'.getD s.index 0))
    {values values' : Array Exact} (start : Q values)
    (run : settleAll tolerance ss values = .ok (some values')) :
    Q values' ∧ ∀ s ∈ ss, P s (values'.getD s.index 0) := by
  induction ss generalizing values with
  | nil =>
    obtain rfl := Option.some.inj (Except.ok.inj run)
    exact ⟨start, by simp⟩
  | cons s ss ih =>
    obtain ⟨fresh, distinct⟩ := List.nodup_cons.mp distinct
    rw [settleAll] at run
    split at run
    case h_1 between settles =>
      obtain ⟨kept, good⟩ := step s List.mem_cons_self values between start settles
      obtain ⟨last, goods⟩ := ih distinct (fun u hu => step u (List.mem_cons_of_mem _ hu)) kept run
      refine ⟨last, List.forall_mem_cons.mpr ⟨?_, goods⟩⟩
      rwa [getD_settleAll run fresh]
    case h_2 stops => exact absurd run (stops values')

/-- The bounds of the variables leave room on their own side. -/
structure Roomy (m : Program Exact) : Prop where
  lower : ∀ v ∈ m.vars, v.lower < top
  upper : ∀ v ∈ m.vars, bottom < v.upper

section Sound

variable (hm : m.WellFormed) (hf : m.IsFinite) (room : Roomy m) (nonneg : 0 ≤ tolerance)

include hm hf in
/-- What confines a variable can be read off the bits. -/
theorem readable_confining {bits : ℕ → ℚ} {values : Array Exact} (carries : Carries m bits values)
    {v : ℕ} : ∀ e ∈ confining m v, Readable values v bits e := by
  intro e he
  obtain ⟨hc, single⟩ := mem_confining.mp he
  obtain ⟨term, others⟩ := single?_eq_some single
  refine ⟨hm.isNormal hc (hf.constraints _ hc), term, fun t ht differ => carries.bits _ ?_⟩
  exact (isBinary_or_isContinuous (hm.named _ hc t ht)).resolve_right (others t ht differ)

include hm hf room nonneg

/-- A settled variable stays within the tolerance of its bounds. -/
theorem within_of_settle {bits : ℕ → ℚ} {values values' : Array Exact}
    (carries : Carries m bits values) {s : Settling Exact} (mem : s ∈ settlings m)
    (run : s.settle tolerance values = .ok (some values')) :
    Carries m bits values' ∧ Within s.bounds tolerance (values'.getD s.index 0) := by
  have continuous := mem_index_settlings.mp (List.mem_map_of_mem (f := (·.index)) mem)
  obtain ⟨w, hw, kind, settles⟩ := mem_settlings.mp mem
  have inside : s.index < values.size := by
    rw [carries.size]
    exact (Array.getElem?_eq_some_iff.mp hw).1
  have confines : s.confining = confining m s.index := by rw [settles]
  have bounds : s.bounds = (w.lower, w.upper) := by rw [settles]
  have member := Array.mem_of_getElem? hw
  have start : Cut s.bounds s.bounds := by
    rw [bounds]
    exact ⟨room.lower w member, room.upper w member, le_self_of_lt_top (room.lower w member),
      le_self_of_bottom_lt (room.upper w member)⟩
  have cut := cut_foldl_confine (confines ▸ readable_confining hm hf carries) start
  unfold Settling.settle at run
  dsimp only at run
  split at run
  case isTrue => cases run
  case isFalse proper =>
    split at run
    case h_1 x picked =>
      obtain rfl := Option.some.inj (Except.ok.inj run)
      refine ⟨carries.set continuous x, ?_⟩
      rw [getD_set_self inside]
      exact within_of_pick? cut nonneg proper picked
    case h_2 => cases run

omit hm hf room nonneg in
/-- A candidate that counts satisfies the constraints, and its score is that of its values. -/
theorem passes_of_attempt {p : Plan Exact} {choice : Path} {s : Scored Exact}
    (run : p.attempt tolerance choice = .ok (some s)) :
    (∀ c ∈ p.program.constraints, c.isSatisfied s.values tolerance = true) ∧
      s.score = finite p.program.direction.sign * p.program.objective.evaluate s.values := by
  have attempt := (attempt_of_settled (settleAll_of_attempt run)).symm.trans run
  split at attempt
  case isTrue passes =>
    have same := Option.some.inj (Except.ok.inj attempt)
    exact ⟨Array.all_eq_true_iff_forall_mem.mp passes, (congrArg (·.score) same).symm⟩
  case isFalse => cases attempt

omit hm hf room in
theorem admits_bit {w : Variable Exact} (kind : w.kind = .binary) (lower : w.lower = 0)
    (upper : w.upper = 1) {x : Exact} (bit : x = 0 ∨ x = 1) :
    Variable.admits w x tolerance = true := by
  obtain ⟨k, l, u, name⟩ := w
  obtain rfl : k = .binary := kind
  obtain rfl : l = 0 := lower
  obtain rfl : u = 1 := upper
  have exact : Variable.admits ⟨.binary, 0, 1, name⟩ x 0 = true := admits_binary_iff.mpr bit
  cases tolerance with
  | finite t => rcases bit with rfl | rfl <;> exact admits_mono nonneg exact
  | top => rcases bit with rfl | rfl <;> rfl
  | bottom => exact nonneg.elim
  | notANumber => exact nonneg.elim

/-- A candidate that counts passes every check up to the tolerance. -/
theorem isFeasible_of_attempt {choice : Path} (mem : choice ∈ (space m).choices) {s : Scored Exact}
    (run : (plan m).attempt tolerance choice = .ok (some s)) :
    (∀ v < m.vars.size, Scalar.isFinite (s.values.getD v 0) = true) ∧
      (∀ v, m.isBinary v = true → s.values.getD v 0 = 0 ∨ s.values.getD v 0 = 1) ∧
      m.isFeasible s.values tolerance = true := by
  obtain ⟨bits, carries, whole⟩ := exists_bits mem
  obtain ⟨carried, within⟩ := settleAll_spec (Q := Carries m bits)
    (P := fun s x => Within s.bounds tolerance x) (nodup_index_settlings m)
    (fun s hs values values' carries run => within_of_settle hm hf room nonneg carries hs run)
    carries (settleAll_of_attempt run)
  have settled {v : ℕ} {w : Variable Exact} (hw : m.vars[v]? = some w) (kind : w.kind = .continuous) :
      Within (w.lower, w.upper) tolerance (s.values.getD v 0) :=
    within ⟨v, m.exportName v, (w.lower, w.upper), confining m v, preference m v⟩
      (mem_settlings.mpr ⟨w, hw, kind, rfl⟩)
  have bit {v : ℕ} (binary : m.isBinary v = true) : s.values.getD v 0 = 0 ∨ s.values.getD v 0 = 1 := by
    rw [carried.bits v binary, zero_eq_finite, one_eq_finite]
    exact (whole v).imp (congrArg finite) (congrArg finite)
  refine ⟨fun v hv => ?_, fun v => bit, isFeasible_iff.mpr ⟨carried.size, fun i w hw => ?_,
    (passes_of_attempt run).1⟩⟩
  · rcases isBinary_or_isContinuous hv with binary | continuous
    · rw [carried.bits v binary]
      rfl
    · have hw := Array.getElem?_eq_getElem hv
      rw [isContinuous, hw, Option.any_some, beq_iff_eq] at continuous
      exact (settled hw continuous).isFinite
  · have inside : i < s.values.size := by
      rw [carried.size]
      exact (Array.getElem?_eq_some_iff.mp hw).1
    have value : s.values.getD i Scalar.notANumber = s.values.getD i 0 := by
      rw [Array.getD_eq_getD_getElem?, Array.getD_eq_getD_getElem?,
        Array.getElem?_eq_getElem inside, Option.getD_some, Option.getD_some]
    rw [value]
    cases kind : w.kind with
    | continuous =>
      obtain ⟨-, lower, upper⟩ := settled hw kind
      rw [Variable.admits, kind, decide_eq_true lower, decide_eq_true upper]
      rfl
    | binary =>
      obtain ⟨lower, upper⟩ := hm.bits w (Array.mem_of_getElem? hw) kind
      refine admits_bit nonneg kind lower upper (bit ?_)
      rw [isBinary, hw, Option.any_some, kind]
      rfl

end Sound

/-! ## The answer -/

/-- A search that comes to an end has accepted what its candidates come to. -/
theorem accepted_eq {p : Plan Exact} {choices : List Path} {found : Path → Option (Scored Exact)}
    (runs : ∀ choice ∈ choices, p.attempt tolerance choice = .ok (found choice)) :
    p.accepted tolerance choices = choices.filterMap found := by
  have attempts : choices.map (p.attempt tolerance) = choices.map fun c => .ok (found c) :=
    List.map_congr_left runs
  have all : ∀ x ∈ choices.map fun c => (.ok (found c) : Except SolverError _), x.isOk = true := by
    intro x hx
    obtain ⟨c, -, rfl⟩ := List.mem_map.mp hx
    rfl
  change ((choices.map (p.attempt tolerance)).takeWhile Except.isOk).filterMap _ = _
  rw [attempts, List.takeWhile_eq_self_iff.mpr all, List.filterMap_map]
  rfl

/-- What the search answers with passes every check up to the tolerance, and no candidate that it
accepted scores better by more than that. -/
theorem solve_sound {m : Program Exact} (built : m.Built) (isFinite : m.IsFinite)
    (room : Roomy m) {settings : SearchSettings Exact} (nonneg : 0 ≤ settings.tolerance)
    {s : Solution Exact} (solved : solve settings m = .ok s) :
    (∀ v, m.isBinary v = true → s.values.getD v 0 = 0 ∨ s.values.getD v 0 = 1) ∧
    m.isFeasible s.values settings.tolerance = true ∧
    s.objective = m.objective.evaluate s.values ∧
    (∃ c ∈ (plan m).accepted settings.tolerance (space m).choices, c.values = s.values) ∧
    ∀ c ∈ (plan m).accepted settings.tolerance (space m).choices,
      m.isFeasible c.values settings.tolerance = true ∧
      c.score = finite m.direction.sign * m.objective.evaluate c.values ∧
      ¬ finite m.direction.sign * s.objective + settings.tolerance < c.score := by
  have hm := built.wellFormed
  obtain ⟨top, run, rfl⟩ := solve_eq_ok solved
  change (plan m).best? settings.tolerance (space m).choices = _ at run
  obtain ⟨found, runs, kept⟩ := exists_found_of_best? run
  rw [accepted_eq (p := plan m) runs]
  have source : top ∈ (space m).choices.filterMap found :=
    (mem_of_foldl_better kept).resolve_left nofun
  have sound : ∀ c ∈ (space m).choices.filterMap found,
      (∀ v < m.vars.size, Scalar.isFinite (c.values.getD v 0) = true) ∧
      (∀ v, m.isBinary v = true → c.values.getD v 0 = 0 ∨ c.values.getD v 0 = 1) ∧
      m.isFeasible c.values settings.tolerance = true ∧
      c.score = finite m.direction.sign * m.objective.evaluate c.values := by
    intro c hc
    obtain ⟨choice, mem, same⟩ := List.mem_filterMap.mp hc
    have run := same ▸ runs choice mem
    obtain ⟨values, bits, feasible⟩ := isFeasible_of_attempt hm isFinite room nonneg mem run
    exact ⟨values, bits, feasible, (passes_of_attempt run).2⟩
  have scores : ∀ c ∈ (space m).choices.filterMap found, Scalar.isFinite c.score = true := by
    intro c hc
    obtain ⟨values, -, -, score⟩ := sound c hc
    have value : m.objective.evaluate c.values = finite (m.objective.valueAt (reading c.values)) :=
      LinearExpr.evaluate_eq isFinite.objective fun t ht =>
        (finite_rational (values t.1 (hm.objectiveNamed t ht))).symm
    rw [score, value, finite_mul]
    rfl
  obtain ⟨-, bits, feasible, score⟩ := sound top source
  refine ⟨bits, feasible, rfl, ⟨top, source, rfl⟩, fun c hc => ?_⟩
  obtain ⟨-, -, own, value⟩ := sound c hc
  refine ⟨own, value, ?_⟩
  change ¬ finite m.direction.sign * m.objective.evaluate top.values + settings.tolerance < c.score
  rw [← score, ← finite_rational (scores c hc), ← finite_rational (scores top source)]
  obtain ⟨limit, tolerance⟩ := settings
  cases tolerance with
  | finite t =>
    have within := le_of_foldl_better nonneg scores kept c hc
    rw [finite_add, finite_lt]
    exact not_lt.mpr within
  | top => exact id
  | bottom => exact nonneg.elim
  | notANumber => exact nonneg.elim

/-- Two pipes fill a tank of five units, and opening the first one costs one unit.  One constraint
names two continuous variables; the other one is lazy and names a bit. -/
def pipes : Program Exact :=
  ⟨#[⟨.binary, 0, 1, none⟩, ⟨.continuous, 0, finite 2, none⟩, ⟨.continuous, 0, finite 3, none⟩],
    #[normalized (LinearExpr.var 1 + LinearExpr.var 2) .le (finite 5) false,
      normalized (LinearExpr.var 1 - LinearExpr.term 0 (finite 2)) .le 0 true], .maximize,
    (LinearExpr.var 1 + LinearExpr.var 2 - LinearExpr.var 0 : LinearExpr Exact).compact⟩

theorem built_pipes : pipes.Built := by
  have bit : Built ⟨#[⟨.binary, 0, 1, none⟩], #[], .maximize, .zero⟩ :=
    @Built.binary _ _ none 0 .empty rfl
  have first : Built ⟨#[⟨.binary, 0, 1, none⟩, ⟨.continuous, 0, finite 2, none⟩], #[],
      .maximize, .zero⟩ := @Built.continuous _ _ 0 (finite 2) none 1 bit rfl
  have second : Built ⟨#[⟨.binary, 0, 1, none⟩, ⟨.continuous, 0, finite 2, none⟩,
      ⟨.continuous, 0, finite 3, none⟩], #[], .maximize, .zero⟩ :=
    @Built.continuous _ _ 0 (finite 3) none 2 first rfl
  have tank : Built ⟨#[⟨.binary, 0, 1, none⟩, ⟨.continuous, 0, finite 2, none⟩,
      ⟨.continuous, 0, finite 3, none⟩],
      #[normalized (LinearExpr.var 1 + LinearExpr.var 2) .le (finite 5) false], .maximize, .zero⟩ :=
    .constraint (i := 0) second (by decide +kernel) rfl
  have shut : Built ⟨#[⟨.binary, 0, 1, none⟩, ⟨.continuous, 0, finite 2, none⟩,
      ⟨.continuous, 0, finite 3, none⟩],
      #[normalized (LinearExpr.var 1 + LinearExpr.var 2) .le (finite 5) false,
        normalized (LinearExpr.var 1 - LinearExpr.term 0 (finite 2)) .le 0 true],
      .maximize, .zero⟩ := .constraint (i := 1) tank (by decide +kernel) rfl
  exact .objective shut (by decide +kernel)

theorem isFinite_pipes : pipes.IsFinite where
  constraints := by
    intro c hc
    rcases Array.mem_toList_iff.mpr hc with _ | ⟨_, _ | ⟨_, h⟩⟩
    · exact isFinite_normalized
        ((LinearExpr.isFinite_var 1).add (LinearExpr.isFinite_var 2)) .le 5 false
    · exact isFinite_normalized
        ((LinearExpr.isFinite_var 1).sub (LinearExpr.isFinite_term 0 2)) .le 0 true
    · cases h
  objective := (((LinearExpr.isFinite_var 1).add (LinearExpr.isFinite_var 2)).sub
    (LinearExpr.isFinite_var 0)).compact

/-- Both ways to set the first pipe are accepted, and at a tolerance of a half the open one wins. -/
theorem solve_sound_pipes :
    pipes.Built ∧ pipes.IsFinite ∧ Roomy pipes ∧ (0 : Exact) ≤ finite (1 / 2) ∧
      ∃ s, solve ⟨2, finite (1 / 2)⟩ pipes = .ok s ∧
        pipes.isFeasible s.values (finite (1 / 2)) = true ∧ s.objective = finite 4 ∧
        ((plan pipes).accepted (finite (1 / 2)) (space pipes).choices).map (·.score) =
          [finite 3, finite 4] := by
  have room : Roomy pipes := ⟨by decide +kernel, by decide +kernel⟩
  have nonneg : (0 : Exact) ≤ finite (1 / 2) := by decide +kernel
  obtain ⟨s, solved, value⟩ := exists_eq_ok_of_any (x := solve ⟨2, finite (1 / 2)⟩ pipes)
    (fun s => s.objective = finite 4) (by decide +kernel)
  obtain ⟨-, feasible, -⟩ := solve_sound built_pipes isFinite_pipes room nonneg solved
  exact ⟨built_pipes, isFinite_pipes, room, nonneg, s, solved, feasible, of_decide_eq_true value,
    by decide +kernel⟩

end Search

end Influence
