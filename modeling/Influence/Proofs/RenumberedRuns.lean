import Mathlib.Logic.Function.Basic
import Influence.Proofs.Renumbering

/-!
# Runs on diagrams that differ by numbers

What an action does to a diagram it does to every alike one, as long as it finds nodes by name
(`Respects`): it succeeds on both, and leaves alike diagrams behind.  Attaching tables is of this
kind (`respects_attachTables`).  Generation goes through the nodes by number, but what it fills in
for a node does not depend on when (`Fills`), and the shift depends on the extremes of the utilities
alone (`Alike.generate`).
-/

namespace Influence.Diagram

variable {α : Type} {d e : Diagram α} {ns : List Node} {i j : ℕ} {n : Node} {name : String}

/-! ## Names and tables -/

theorem table?_set_of_ne (differ : i ≠ j) (t : Tensor α) :
    ({ d with tables := d.tables.set i (some t) } : Diagram α).table? j = d.table? j := by
  rw [table?, List.getElem?_set_ne differ]
  rfl

namespace Orders

variable (h : d.Orders ns)

include h

/-- The order stays where only tables change. -/
theorem with_tables {tables : List (Option (Tensor α))} (places : tables.length = d.tables.length) :
    Orders { d with tables } ns where
  nodes := h.nodes
  arranged := { h.arranged with }
  parents := h.parents
  places := places.trans h.places

theorem lt_tables (hn : d.nodes[i]? = some n) : i < d.tables.length := by
  rw [h.places]
  exact (List.getElem?_eq_some_iff.mp hn).1

theorem tableNamed_set (hn : d.nodes[i]? = some n) (t : Tensor α) :
    ({ d with tables := d.tables.set i (some t) } : Diagram α).tableNamed =
      Function.update d.tableNamed n.name (some t) := by
  funext name
  change (d.position? name).bind _ = _
  by_cases same : name = n.name
  · rw [same, Function.update_self, h.position?_eq hn]
    exact table?_set_self (h.lt_tables hn) t
  · rw [Function.update_of_ne same, tableNamed]
    refine Option.bind_congr fun j hj => table?_set_of_ne (fun equal => same ?_) t
    rcases (position?_eq_some_iff h.arranged.names).mp hj with ⟨m, hm, rfl⟩
    rw [← equal, hn, Option.some.injEq] at hm
    rw [hm]

theorem tableNamed_eq_none (unknown : name ∉ ns.map (·.name)) : d.tableNamed name = none := by
  refine Option.bind_eq_none_iff.mpr fun i hi => ?_
  rcases (position?_eq_some_iff h.arranged.names).mp hi with ⟨n, hn, rfl⟩
  exact absurd (List.mem_map_of_mem (h.mem_of_getElem? hn)) unknown

/-- Diagrams with the same nodes have the same tables, if they have them node by node. -/
theorem tableNamed_ext (h' : e.Orders ns)
    (same : ∀ i j n, d.nodes[i]? = some n → e.nodes[j]? = some n → e.table? j = d.table? i) :
    e.tableNamed = d.tableNamed := by
  funext name
  by_cases known : name ∈ ns.map (·.name)
  · rcases List.mem_map.mp known with ⟨n, hn, rfl⟩
    rcases h.exists_place hn with ⟨i, hi⟩
    rcases h'.exists_place hn with ⟨j, hj⟩
    rw [h.tableNamed_eq hi, h'.tableNamed_eq hj, same i j n hi hj]
  · rw [h.tableNamed_eq_none known, h'.tableNamed_eq_none known]

end Orders

theorem indexOf_eq_ok_iff : d.indexOf name = .ok i ↔
    d.phase ≠ .building ∧ d.position? name = some i := by
  unfold indexOf
  split
  case isTrue building => exact iff_of_false (fun h => by cases h) fun h => h.1 building
  case isFalse assembled =>
    rw [and_iff_right assembled]
    cases d.position? name with
    | none => exact iff_of_false (fun h => by cases h) fun h => by cases h
    | some k => rw [Except.ok.injEq, Option.some.injEq]

theorem Orders.lookup_eq_ok_iff (h : d.Orders ns) (assembled : d.phase ≠ .building) :
    d.lookup name = .ok (i, n) ↔ d.nodes[i]? = some n ∧ n.name = name := by
  constructor
  · intro found
    rcases except_bind_eq_ok.mp found with ⟨k, index, found⟩
    rcases (position?_eq_some_iff h.arranged.names).mp (indexOf_eq_ok_iff.mp index).2
      with ⟨m, hm, named⟩
    rw [hm] at found
    obtain ⟨rfl, rfl⟩ := Prod.mk.inj (except_pure_eq_ok.mp found)
    exact ⟨hm, named⟩
  · rintro ⟨hn, rfl⟩
    rw [← nameOf_eq hn]
    exact h.arranged.lookup_nameOf assembled hn

theorem Orders.attachable_eq_ok_iff (h : d.Orders ns) {kind : NodeKind} :
    d.attachable name kind = .ok i ↔
      d.phase = .assembled ∧ ∃ n, d.nodes[i]? = some n ∧ n.name = name ∧ n.kind = kind := by
  unfold attachable
  cases phase : d.phase with
  | building => exact iff_of_false (fun h => by cases h) fun h => by cases h.1
  | generated => exact iff_of_false (fun h => by cases h) fun h => by cases h.1
  | assembled =>
    have assembled : d.phase ≠ .building := by
      rw [phase]
      decide
    rw [and_iff_right rfl]
    constructor
    · intro found
      rcases except_bind_eq_ok.mp found with ⟨⟨k, m⟩, node, found⟩
      rcases (h.lookup_eq_ok_iff assembled).mp node with ⟨hm, named⟩
      dsimp only at found
      split at found
      case isTrue kind =>
        obtain rfl := except_pure_eq_ok.mp found
        exact ⟨m, hm, named, kind⟩
      case isFalse => cases found
    · rintro ⟨m, hm, named, kind⟩
      exact except_bind_eq_ok.mpr ⟨_, (h.lookup_eq_ok_iff assembled).mpr ⟨hm, named⟩, if_pos kind⟩

/-! ## Alike diagrams stay alike -/

namespace Alike

variable (h : Alike ns d e)

include h

theorem exists_place (hn : d.nodes[i]? = some n) : ∃ j : ℕ, e.nodes[j]? = some n :=
  h.right.exists_place (h.left.mem_of_getElem? hn)

theorem expectedShape_eq (hn : d.nodes[i]? = some n) (hm : e.nodes[j]? = some n) :
    e.expectedShape j = d.expectedShape i := by
  rw [h.left.expectedShape_eq hn, h.right.expectedShape_eq hm]

/-- A table for the same node. -/
theorem set (hn : d.nodes[i]? = some n) (hm : e.nodes[j]? = some n) (t : Tensor α) :
    Alike ns { d with tables := d.tables.set i (some t) }
      { e with tables := e.tables.set j (some t) } where
  left := h.left.with_tables (List.length_set ..)
  right := h.right.with_tables (List.length_set ..)
  phase := h.phase
  strict := h.strict
  tables := by rw [h.left.tableNamed_set hn, h.right.tableNamed_set hm, h.tables]
  pathUtility := h.pathUtility
  shift := h.shift
  sign := h.sign

theorem exists_attachable {kind : NodeKind} (found : d.attachable name kind = .ok i) :
    ∃ j n, e.attachable name kind = .ok j ∧ d.nodes[i]? = some n ∧ e.nodes[j]? = some n := by
  rcases h.left.attachable_eq_ok_iff.mp found with ⟨assembled, n, hn, named⟩
  rcases h.exists_place hn with ⟨j, hm⟩
  exact ⟨j, n, h.right.attachable_eq_ok_iff.mpr ⟨h.phase.trans assembled, n, hm, named⟩, hn, hm⟩

theorem unpack_eq (hn : d.nodes[i]? = some n) (hm : e.nodes[j]? = some n)
    (source : TableSource α) : e.unpack name j source = d.unpack name i source := by
  unfold unpack
  rw [h.expectedShape_eq hn hm]

theorem tensor_eq_ok [Scalar α] {nested : Nested α} {t : Tensor α}
    (run : DiagramFile.tensor d name nested = .ok t) :
    DiagramFile.tensor e name nested = .ok t := by
  rcases except_bind_eq_ok.mp run with ⟨i, index, run⟩
  rcases indexOf_eq_ok_iff.mp index with ⟨assembled, position⟩
  rcases (position?_eq_some_iff h.left.arranged.names).mp position with ⟨n, hn, rfl⟩
  rcases h.exists_place hn with ⟨j, hm⟩
  have index' : e.indexOf n.name = .ok j :=
    indexOf_eq_ok_iff.mpr ⟨h.phase ▸ assembled, h.right.position?_eq hm⟩
  refine except_bind_eq_ok.mpr ⟨j, index', ?_⟩
  cases flat : nested.flatten with
  | ok entries =>
    rw [flat] at run
    exact run
  | error fault =>
    rw [flat] at run
    cases run

end Alike

/-- Where the action succeeds, it succeeds on alike diagrams, and leaves alike diagrams behind. -/
def Respects (x : DiagramM α Unit) : Prop :=
  ∀ (ns : List Node) (d e d' : Diagram α), Alike ns d e → Succeeds x d () d' →
    ∃ e', Succeeds x e () e' ∧ Alike ns d' e'

theorem Respects.bind {x y : DiagramM α Unit} (hx : Respects x) (hy : Respects y) :
    Respects (x >>= fun _ => y) := by
  intro ns d e d'' h run
  rcases succeeds_bind.mp run with ⟨_, d', first, second⟩
  rcases hx ns d e d' h first with ⟨e', first', h'⟩
  rcases hy ns d' e' d'' h' second with ⟨e'', second', h''⟩
  exact ⟨e'', succeeds_bind.mpr ⟨(), e', first', second'⟩, h''⟩

theorem Respects.forM {β : Type} {bs : List β} {f : β → DiagramM α Unit}
    (hf : ∀ b ∈ bs, Respects (f b)) : Respects (bs.forM f) := by
  induction bs with
  | nil =>
    intro ns d e d' h run
    obtain rfl := succeeds_forM_nil.mp run
    exact ⟨e, succeeds_forM_nil.mpr rfl, h⟩
  | cons b bs ih =>
    exact (hf b List.mem_cons_self).bind (ih fun c hc => hf c (List.mem_cons_of_mem _ hc))

/-! ## Attaching tables -/

section Attaching

variable [Scalar α]

theorem succeeds_setProbabilities_iff {source : TableSource α} {d' : Diagram α} :
    Succeeds (setProbabilities name source) d () d' ↔
      ∃ i t, d.attachable name .chance = .ok i ∧ d.unpack name i source = .ok t ∧
        (t.data.toList.find? fun x => !Scalar.isFinite x || decide (x < 0)) = none ∧
        (if d.strict then unnormalizedRow? t else none) = none ∧
        d' = { d with tables := d.tables.set i (some t) } := by
  unfold setProbabilities
  rw [succeeds_get_bind, succeeds_liftM_bind]
  refine exists_congr fun i => ?_
  rw [succeeds_liftM_bind, ← exists_and_left]
  refine exists_congr fun t => and_congr_right fun _ => and_congr_right fun _ => ?_
  cases t.data.toList.find? fun x => !Scalar.isFinite x || decide (x < 0) with
  | some x => exact iff_of_false not_succeeds_throw fun h => by cases h.1
  | none =>
    rw [and_iff_right rfl]
    cases (if d.strict then unnormalizedRow? t else none) with
    | some row => exact iff_of_false not_succeeds_throw fun h => by cases h.1
    | none =>
      rw [and_iff_right rfl]
      exact succeeds_modify

theorem succeeds_setUtility_iff {source : TableSource α} {d' : Diagram α} :
    Succeeds (setUtility name source) d () d' ↔
      ∃ i t, d.attachable name .value = .ok i ∧ d.unpack name i source = .ok t ∧
        t.data.all Scalar.isFinite = true ∧
        d' = { d with tables := d.tables.set i (some t) } := by
  unfold setUtility
  rw [succeeds_get_bind, succeeds_liftM_bind]
  refine exists_congr fun i => ?_
  rw [succeeds_liftM_bind, ← exists_and_left]
  refine exists_congr fun t => and_congr_right fun _ => and_congr_right fun _ => ?_
  by_cases entries : t.data.all Scalar.isFinite = true
  · rw [if_pos entries, and_iff_right entries]
    exact succeeds_modify
  · rw [if_neg entries]
    exact iff_of_false not_succeeds_throw fun h => entries h.1

theorem respects_setProbabilities (name : String) (source : TableSource α) :
    Respects (setProbabilities name source) := by
  intro ns d e d' h run
  obtain ⟨i, t, found, unpacked, entries, rows, rfl⟩ := succeeds_setProbabilities_iff.mp run
  rcases h.exists_attachable found with ⟨j, n, found', hn, hm⟩
  exact ⟨_, succeeds_setProbabilities_iff.mpr ⟨j, t, found', (h.unpack_eq hn hm _).trans unpacked,
    entries, h.strict ▸ rows, rfl⟩, h.set hn hm t⟩

theorem respects_setUtility (name : String) (source : TableSource α) :
    Respects (setUtility name source) := by
  intro ns d e d' h run
  obtain ⟨i, t, found, unpacked, entries, rfl⟩ := succeeds_setUtility_iff.mp run
  rcases h.exists_attachable found with ⟨j, n, found', hn, hm⟩
  exact ⟨_, succeeds_setUtility_iff.mpr ⟨j, t, found', (h.unpack_eq hn hm _).trans unpacked,
    entries, rfl⟩, h.set hn hm t⟩

theorem respects_attachTables (f : DiagramFile α) : Respects f.attachTables := by
  have step (name : String) (nested : Nested α) {action : Tensor α → DiagramM α Unit}
      (respects : ∀ t, Respects (action t)) :
      Respects (do
        let t ← (DiagramFile.tensor (← get) name nested : Except (DiagramError α) _)
        action t) := by
    intro ns d e d' h run
    rw [succeeds_get_bind, succeeds_liftM_bind] at run
    rcases run with ⟨t, tensor, run⟩
    rcases respects t ns d e d' h run with ⟨e', run', h'⟩
    exact ⟨e', succeeds_get_bind.mpr (succeeds_liftM_bind.mpr ⟨t, h.tensor_eq_ok tensor, run'⟩), h'⟩
  exact .bind (.forM fun b _ => step b.1 b.2 fun t => respects_setProbabilities b.1 (.plain t))
    (.forM fun b _ => step b.1 b.2 fun t => respects_setUtility b.1 (.plain t))

end Attaching

/-! ## Filling tables in -/

/-- The second diagram is the first one, where nodes at these positions got a new table if they had
none. -/
structure Fills (js : List ℕ) (new : ℕ → Tensor α) (d d' : Diagram α) : Prop where
  same : d' = { d with tables := d'.tables }
  places : d'.tables.length = d.tables.length
  tables : ∀ i, d'.table? i = (d.table? i).or (if i ∈ js then some (new i) else none)

namespace Fills

variable {js ks : List ℕ} {new : ℕ → Tensor α} {d' d'' : Diagram α}

theorem refl (d : Diagram α) : Fills [] new d d :=
  ⟨rfl, rfl, fun i => by rw [if_neg List.not_mem_nil, Option.or_none]⟩

theorem trans (h : Fills js new d d') (h' : Fills ks new d' d'') : Fills (js ++ ks) new d d'' where
  same := by
    rw [h'.same, h.same]
  places := h'.places.trans h.places
  tables i := by
    rw [h'.tables, h.tables, Option.or_assoc]
    simp only [List.mem_append]
    split <;> split <;> simp_all

/-- What has no table had none. -/
theorem table?_eq_none (h : Fills js new d d') (bare : d'.table? i = none) : d.table? i = none := by
  rw [h.tables, Option.or_eq_none_iff] at bare
  exact bare.1

theorem orders (h : Fills js new d d') (orders : d.Orders ns) : d'.Orders ns := by
  rw [h.same]
  exact orders.with_tables h.places

end Fills

/-- An action that fills in the table of one node, if that is allowed.  The new table does not
depend on other tables. -/
structure FillsIn (f : ℕ → DiagramM α Unit) (allowed : Prop) (new : Diagram α → ℕ → Tensor α) :
    Prop where
  step : ∀ d j d', Succeeds (f j) d () d' ↔ (d.table? j = none → allowed) ∧
    d' = if (d.table? j).isNone then { d with tables := d.tables.set j (some (new d j)) } else d
  fixed : ∀ (d : Diagram α) tables j, new { d with tables } j = new d j

namespace FillsIn

variable {f : ℕ → DiagramM α Unit} {allowed : Prop} {new : Diagram α → ℕ → Tensor α}
  (h : FillsIn f allowed new)

include h

theorem fills_step {d' : Diagram α} (hj : j < d.tables.length) (run : Succeeds (f j) d () d') :
    Fills [j] (new d) d d' := by
  obtain ⟨-, rfl⟩ := (h.step d j d').mp run
  cases table : d.table? j with
  | some t =>
    refine ⟨rfl, rfl, fun i => ?_⟩
    change d.table? i = _
    by_cases same : i = j
    · rw [same, table]
      rfl
    · rw [if_neg (List.mem_singleton.not.mpr same), Option.or_none]
  | none =>
    refine ⟨rfl, List.length_set .., fun i => ?_⟩
    change ({ d with tables := d.tables.set j (some (new d j)) } : Diagram α).table? i = _
    by_cases same : i = j
    · rw [same, table?_set_self hj, table, if_pos List.mem_cons_self]
      rfl
    · rw [table?_set_of_ne (Ne.symm same), if_neg (List.mem_singleton.not.mpr same),
        Option.or_none]

theorem fills_forM {js : List ℕ} {d' : Diagram α} (inside : ∀ j ∈ js, j < d.tables.length)
    (run : Succeeds (js.forM f) d () d') :
    (∀ j ∈ js, d.table? j = none → allowed) ∧ Fills js (new d) d d' := by
  induction js generalizing d with
  | nil =>
    obtain rfl := succeeds_forM_nil.mp run
    exact ⟨fun j hj => (by cases hj), .refl d'⟩
  | cons j js ih =>
    rcases List.forall_mem_cons.mp inside with ⟨hj, rest⟩
    rcases succeeds_forM_cons.mp run with ⟨d₁, first, run⟩
    have one := h.fills_step hj first
    have new_eq : new d₁ = new d := by
      rw [one.same]
      exact funext (h.fixed d d₁.tables)
    rcases ih (fun k hk => one.places ▸ rest k hk) run with ⟨may, others⟩
    refine ⟨List.forall_mem_cons.mpr ⟨((h.step d j d₁).mp first).1, fun k hk bare => ?_⟩,
      one.trans (new_eq ▸ others)⟩
    by_cases same : k = j
    · exact ((h.step d j d₁).mp first).1 (same ▸ bare)
    · refine may k hk ?_
      rw [one.tables, bare, if_neg (List.mem_singleton.not.mpr same)]
      rfl

theorem exists_forM {js : List ℕ} (inside : ∀ j ∈ js, j < d.tables.length)
    (may : ∀ j ∈ js, d.table? j = none → allowed) : ∃ d', Succeeds (js.forM f) d () d' := by
  induction js generalizing d with
  | nil => exact ⟨d, succeeds_forM_nil.mpr rfl⟩
  | cons j js ih =>
    rcases List.forall_mem_cons.mp inside with ⟨hj, rest⟩
    rcases List.forall_mem_cons.mp may with ⟨own, others⟩
    have first := (h.step d j _).mpr ⟨own, rfl⟩
    have one := h.fills_step hj first
    rcases ih (fun k hk => one.places ▸ rest k hk)
      (fun k hk bare => others k hk (one.table?_eq_none bare)) with ⟨d', run⟩
    exact ⟨d', succeeds_forM_cons.mpr ⟨_, first, run⟩⟩

end FillsIn

section Defaults

variable [Scalar α]

theorem fillsIn_probability (o : GenerateOptions) :
    FillsIn (α := α) (fillProbability o) (o.defaultProbability = true) uniform where
  step d j d' := by
    unfold fillProbability
    rw [succeeds_get_bind]
    cases table : d.table? j with
    | some t =>
      change Succeeds (pure ()) d () d' ↔ (some t = none → _) ∧ d' = d
      rw [succeeds_pure]
      exact ⟨fun h => ⟨fun other => (by cases other), h.2.symm⟩, fun h => ⟨rfl, h.2.symm⟩⟩
    | none =>
      cases o.defaultProbability with
      | false =>
        refine iff_of_false (fun run => ?_) fun h => Bool.false_ne_true (h.1 rfl)
        rcases succeeds_bind.mp run with ⟨_, _, thrown, -⟩
        exact not_succeeds_throw thrown
      | true => exact succeeds_set.trans ⟨fun h => ⟨fun _ => rfl, h⟩, fun h => h.2⟩
  fixed _ _ _ := rfl

theorem fillsIn_utility :
    FillsIn (α := α) fillUtility True fun d v => .filled (d.expectedShape v) 0 where
  step d v d' := by
    unfold fillUtility
    rw [succeeds_get_bind]
    cases table : d.table? v with
    | some t =>
      change Succeeds (pure ()) d () d' ↔ (some t = none → True) ∧ d' = d
      rw [succeeds_pure]
      exact ⟨fun h => ⟨fun _ => trivial, h.2.symm⟩, fun h => ⟨rfl, h.2.symm⟩⟩
    | none => exact succeeds_set.trans ⟨fun h => ⟨fun _ => trivial, h⟩, fun h => h.2⟩
  fixed _ _ _ := rfl

end Defaults

namespace Alike

variable {d' : Diagram α}

/-- Filling in the tables of alike nodes keeps diagrams alike. -/
theorem of_fills (h : Alike ns d e) {js ks : List ℕ} {new new' : ℕ → Tensor α} {e' : Diagram α}
    (left : Fills js new d d') (right : Fills ks new' e e')
    (agree : ∀ i j n, d.nodes[i]? = some n → e.nodes[j]? = some n →
      (j ∈ ks ↔ i ∈ js) ∧ new' j = new i) : Alike ns d' e' where
  left := left.orders h.left
  right := right.orders h.right
  phase := by rw [left.same, right.same, h.phase]
  strict := by rw [left.same, right.same, h.strict]
  tables := by
    refine (left.orders h.left).tableNamed_ext (right.orders h.right) fun i j n hn hm => ?_
    rw [left.same] at hn
    rw [right.same] at hm
    rcases agree i j n hn hm with ⟨listed, new_eq⟩
    rw [left.tables, right.tables, h.table?_eq hn hm, new_eq]
    simp only [listed]
  pathUtility := by rw [left.same, right.same, h.pathUtility]
  shift := by rw [left.same, right.same, h.shift]
  sign := by rw [left.same, right.same, h.sign]

/-- Filling in tables at the nodes of one kind. -/
theorem forM_fill {f : ℕ → DiagramM α Unit} {allowed : Prop} {new : Diagram α → ℕ → Tensor α}
    (fills : FillsIn f allowed new) (h : Alike ns d e) {keep : Node → Bool}
    (agree : ∀ i j n, d.nodes[i]? = some n → e.nodes[j]? = some n → new e j = new d i)
    (run : Succeeds ((positionsWhere d.nodes keep).forM f) d () d') :
    ∃ e', Succeeds ((positionsWhere e.nodes keep).forM f) e () e' ∧ Alike ns d' e' := by
  have inside {d : Diagram α} (orders : d.Orders ns) :
      ∀ j ∈ positionsWhere d.nodes keep, j < d.tables.length := by
    intro j hj
    rcases mem_positionsWhere.mp hj with ⟨n, hn, -⟩
    exact orders.lt_tables hn
  rcases fills.fills_forM (inside h.left) run with ⟨may, left⟩
  have may' : ∀ k ∈ positionsWhere e.nodes keep, e.table? k = none → allowed := by
    intro k hk bare
    rcases mem_positionsWhere.mp hk with ⟨n, hm, kept⟩
    rcases h.symm.exists_place hm with ⟨i, hn⟩
    exact may i (mem_positionsWhere.mpr ⟨n, hn, kept⟩) ((h.table?_eq hn hm).symm.trans bare)
  rcases fills.exists_forM (inside h.right) may' with ⟨e', run'⟩
  refine ⟨e', run', h.of_fills left (fills.fills_forM (inside h.right) run').2
    fun i j n hn hm => ⟨?_, agree i j n hn hm⟩⟩
  rw [mem_positionsWhere_of_getElem? hn, mem_positionsWhere_of_getElem? hm]

end Alike

/-! ## Generation -/

/-- The order stays where only the phase and the utilities of paths change. -/
theorem Orders.restate (h : d.Orders ns) (phase : Phase) (pathUtility : Option (PathUtility α))
    (shift : α) (sign : UtilitySign) : Orders { d with phase, pathUtility, shift, sign } ns where
  nodes := h.nodes
  arranged := { h.arranged with }
  parents := h.parents
  places := h.places

/-- The path utility that generation settles. -/
def settledUtility (o : GenerateOptions) : Option (PathUtility α) :=
  if o.defaultUtility then some .additive else none

namespace Alike

section Settling

variable [Scalar α] {d' : Diagram α} {o : GenerateOptions}

theorem uniform_eq (h : Alike ns d e) (hn : d.nodes[i]? = some n) (hm : e.nodes[j]? = some n) :
    e.uniform j = d.uniform i := by
  rw [uniform, uniform, h.expectedShape_eq hn hm, stateNames, stateNames, hn, hm]

theorem settleUtility (h : Alike ns d e) (run : Succeeds (settleUtility o) d () d') :
    (∃ e', Succeeds (Diagram.settleUtility o) e () e' ∧ Alike ns d' e') ∧
      d'.pathUtility = settledUtility o := by
  unfold Diagram.settleUtility at run ⊢
  unfold settledUtility
  by_cases default : o.defaultUtility = true
  · rw [if_pos default] at run ⊢
    rw [if_pos default]
    rcases succeeds_bind.mp (succeeds_get_bind.mp run) with ⟨_, d₁, filled, run⟩
    obtain rfl := succeeds_modify.mp run
    rw [h.left.arranged.value] at filled
    rcases h.forM_fill fillsIn_utility
      (fun i j n hn hm => by rw [h.expectedShape_eq hn hm]) filled with ⟨e₁, filled', h₁⟩
    rw [← h.right.arranged.value] at filled'
    refine ⟨⟨_, succeeds_get_bind.mpr (succeeds_bind.mpr
      ⟨(), e₁, filled', succeeds_modify.mpr rfl⟩), ?_⟩, rfl⟩
    exact { h₁ with left := h₁.left.restate .., right := h₁.right.restate .., pathUtility := rfl }
  · rw [if_neg default] at run ⊢
    rw [if_neg default]
    obtain rfl := succeeds_modify.mp run
    refine ⟨⟨_, succeeds_modify.mpr rfl, ?_⟩, rfl⟩
    exact { h with left := h.left.restate .., right := h.right.restate .., pathUtility := rfl }

end Settling

section Exactly

variable {d e d' : Diagram Exact} {o : GenerateOptions}

theorem succeeds_settleSign_iff : Succeeds (Diagram.settleSign o) d () d' ↔
    if (o.positivePathUtility || o.negativePathUtility) = true then
      ∃ low high, d.utilityRange = .ok (low, high) ∧
        d' = if o.positivePathUtility then { d with shift := 1 - low, sign := .positive }
          else { d with shift := -1 - high, sign := .negative }
    else d' = { d with shift := 0, sign := .unrestricted } := by
  unfold Diagram.settleSign
  rw [succeeds_modify_bind]
  by_cases asked : (o.positivePathUtility || o.negativePathUtility) = true
  · rw [if_pos asked, if_pos asked, succeeds_get_bind, succeeds_liftM_bind, Prod.exists]
    refine exists_congr fun low => exists_congr fun high => and_congr_right fun _ => ?_
    dsimp only
    split <;> exact succeeds_set
  · rw [if_neg asked, if_neg asked, succeeds_pure, eq_comm (b := d'), and_iff_right rfl]

theorem settleSign (h : Alike ns d e) (stored : Stored d)
    (additive : (o.positivePathUtility || o.negativePathUtility) = true →
      d.pathUtility = some .additive) (run : Succeeds (settleSign o) d () d') :
    ∃ e', Succeeds (Diagram.settleSign o) e () e' ∧ Alike ns d' e' := by
  simp only [succeeds_settleSign_iff] at run ⊢
  by_cases asked : (o.positivePathUtility || o.negativePathUtility) = true
  · rw [if_pos asked] at run
    simp only [if_pos asked]
    rcases run with ⟨low, high, range, rfl⟩
    refine ⟨_, ⟨low, high, h.utilityRange stored (additive asked) range, rfl⟩, ?_⟩
    split <;>
      exact { h with
        left := h.left.restate .., right := h.right.restate .., shift := rfl, sign := rfl }
  · rw [if_neg asked] at run
    simp only [if_neg asked]
    obtain rfl := run
    refine ⟨_, rfl, ?_⟩
    exact { h with
      left := h.left.restate .., right := h.right.restate .., shift := rfl, sign := rfl }

/-- Generation does the same to alike diagrams. -/
theorem generate (h : Alike ns d e) (run : Succeeds (generate o) d () d') (stored : Stored d') :
    (∃ e', Succeeds (Diagram.generate o) e () e' ∧ Alike ns d' e') ∧
      d'.pathUtility = settledUtility o := by
  rcases succeeds_generate_iff.mp run
    with ⟨assembled, noFault, d₁, d₂, d₃, filled, settled, signed, rfl⟩
  rw [h.left.arranged.chance] at filled
  rcases h.forM_fill (fillsIn_probability o) (fun i j n hn hm => h.uniform_eq hn hm) filled
    with ⟨e₁, filled', h₁⟩
  rw [← h.right.arranged.chance] at filled'
  rcases h₁.settleUtility settled with ⟨⟨e₂, settled', h₂⟩, utility⟩
  obtain ⟨shift, sign, rfl, -⟩ := succeeds_settleSign signed
  have additive (asked : (o.positivePathUtility || o.negativePathUtility) = true) :
      d₂.pathUtility = some .additive := by
    rw [utility, settledUtility, defaultUtility_of_optionFault? noFault asked]
    rfl
  rcases h₂.settleSign ⟨stored.probability, stored.utility⟩ additive signed with ⟨e₃, signed', h₃⟩
  refine ⟨⟨_, succeeds_generate_iff.mpr ⟨h.phase.trans assembled, noFault, e₁, e₂, e₃, filled',
    settled', signed', rfl⟩, ?_⟩, utility⟩
  exact { h₃ with left := h₃.left.restate .., right := h₃.right.restate .., phase := rfl }

end Exactly

end Alike

end Influence.Diagram
