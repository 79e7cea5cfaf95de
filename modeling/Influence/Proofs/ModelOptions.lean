import Influence.Proofs.BuildErrors

/-!
# Model options by name

A file forces states and forbids combinations of states by name; `pathVariableOptions` turns them
into numbers of the diagram.  On a validated file every name and every state is found, and what
comes out means what the file says (`options_of_validate`): a node is forced to the state that is
given for its name, and a forbidden path covers exactly the paths that take one of the combinations
at the named nodes.

Validation does not look at the list of nodes as a whole, though.  A forbidden section without nodes
or with a node twice passes it, and is refused only here.
-/

namespace Influence

open Diagram

variable {α : Type}

namespace Diagram

variable {d : Diagram α} {ns : List Node} {name : String} {i s : ℕ}

/-! ## The diagram of a file -/

/-- Generation keeps the order of the nodes. -/
theorem Orders.generate [Scalar α] (h : d.Orders ns) {o : GenerateOptions} {e : Diagram α}
    (run : Succeeds (generate o) d () e) : e.Orders ns ∧ e.phase = .generated := by
  obtain ⟨-, -, d₁, d₂, d₃, filled, settled, signed, rfl⟩ := succeeds_generate_iff.mp run
  have inside {d : Diagram α} (orders : d.Orders ns) (keep : Node → Bool) :
      ∀ j ∈ positionsWhere d.nodes keep, j < d.tables.length := by
    intro j hj
    rcases mem_positionsWhere.mp hj with ⟨n, hn, -⟩
    exact orders.lt_tables hn
  rw [h.arranged.chance] at filled
  have h₁ := ((fillsIn_probability o).fills_forM (inside h _) filled).2.orders h
  have h₂ : d₂.Orders ns := by
    unfold settleUtility at settled
    split at settled
    case isTrue =>
      rcases succeeds_bind.mp (succeeds_get_bind.mp settled) with ⟨_, d', filled, settled⟩
      obtain rfl := succeeds_modify.mp settled
      rw [h₁.arranged.value] at filled
      exact ((fillsIn_utility.fills_forM (inside h₁ _) filled).2.orders h₁).restate ..
    case isFalse =>
      obtain rfl := succeeds_modify.mp settled
      exact h₁.restate ..
  obtain ⟨shift, sign, rfl, -⟩ := succeeds_settleSign signed
  exact ⟨h₂.restate .., rfl⟩

end Diagram

/-- The diagram of a validated file has the nodes of the file. -/
theorem DiagramFile.Accepted.orders [Scalar α] {f : DiagramFile α} {d : Diagram α}
    (h : f.Accepted) (built : f.build = .ok d) : d.Orders f.nodes ∧ d.phase = .generated := by
  rcases except_bind_eq_ok.mp built with ⟨d₂, assembled, generated⟩
  rcases except_bind_eq_ok.mp assembled with ⟨d₁, arranged, attached⟩
  rcases orders_of_arrange arranged with ⟨orders, bare⟩
  have awaits := (h.attachTables ⟨orders, bare.phase⟩).1 d₂ (after_eq_ok_iff.mp attached)
  exact awaits.orders.generate (after_eq_ok_iff.mp generated)

namespace Diagram

variable {d : Diagram α} {ns : List Node} {name : String} {i s : ℕ}

/-! ## Names and states -/

/-- The path takes, at each of the named nodes, the state that the combination means there. -/
def Takes (d : Diagram α) (ns : List Node) (names : List String) (refs : List StateRef) (p : Path) :
    Prop :=
  List.Forall₂ (fun name ref => ∃ i k, d.position? name = some i ∧ MeansState ns name ref k ∧
    p[i]? = some k) names refs

/-- The position of a named node that has states. -/
def Located (d : Diagram α) (name : String) (i : ℕ) : Prop :=
  ∃ n, d.nodes[i]? = some n ∧ n.name = name ∧ n.isValue = false

namespace Orders

variable (h : d.Orders ns)

include h

theorem position?_of_located (located : d.Located name i) : d.position? name = some i := by
  rcases located with ⟨n, hn, rfl, -⟩
  exact h.position?_eq hn

theorem exists_located {n : Node} (hn : n ∈ ns) (inner : n.isValue = false) :
    ∃ i, d.Located n.name i := by
  rcases h.exists_place hn with ⟨i, hi⟩
  exact ⟨i, n, hi, rfl, inner⟩

/-- What a reference means does not depend on the number of the node. -/
theorem stateOf_eq_ok_iff {n : Node} (hn : d.nodes[i]? = some n) (inner : n.isValue = false)
    {ref : StateRef} :
    (stateOf n ref : Except (DiagramError α) ℕ) = .ok s ↔ MeansState ns n.name ref s := by
  have resolved : (stateOf n ref : Except (DiagramError α) ℕ) = .ok s ↔
      ref.resolve? n.states = some s := by
    unfold stateOf
    cases ref.resolve? n.states <;> simp
  rw [resolved]
  constructor
  · intro meant
    exact ⟨n, h.mem_of_getElem? hn, rfl, inner, meant⟩
  · rintro ⟨m, hm, named, -, meant⟩
    rwa [List.inj_on_of_nodup_map h.names hm (h.mem_of_getElem? hn) named] at meant

end Orders

/-! ## Forbidden combinations -/

/-- One more node of a combination. -/
theorem Orders.locate_eq_ok_iff (h : d.Orders ns) (assembled : d.phase ≠ .building)
    (earlier : List ℕ) (name : String) (is : List ℕ) :
    (do
      let (i, n) ← d.lookup name
      if n.isValue then .error (.invalidForbiddenPath (.valueNode name))
      if earlier.contains i then .error (.invalidForbiddenPath (.repeated name))
      pure (earlier ++ [i]) : Except (DiagramError α) (List ℕ)) = .ok is ↔
    ∃ i, d.Located name i ∧ i ∉ earlier ∧ is = earlier ++ [i] := by
  constructor
  · intro run
    rcases except_bind_eq_ok.mp run with ⟨⟨i, n⟩, found, run⟩
    rcases (h.lookup_eq_ok_iff assembled).mp found with ⟨hn, named⟩
    dsimp only at run
    split at run
    case isTrue => cases run
    case isFalse inner =>
      split at run
      case isTrue => cases run
      case isFalse fresh =>
        refine ⟨i, ⟨n, hn, named, by simpa using inner⟩, by simpa using fresh, ?_⟩
        exact (except_pure_eq_ok.mp run).symm
  · rintro ⟨i, ⟨n, hn, named, inner⟩, fresh, rfl⟩
    refine except_bind_eq_ok.mpr ⟨(i, n), (h.lookup_eq_ok_iff assembled).mpr ⟨hn, named⟩, ?_⟩
    dsimp only
    rw [inner]
    simp [fresh]
    rfl

/-- A list gathered item by item, where each step adds something new. -/
theorem foldlM_gather {ε β : Type} {step : List ℕ → β → Except ε (List ℕ)} {R : β → ℕ → Prop}
    (adds : ∀ earlier b is, step earlier b = .ok is ↔
      ∃ i, R b i ∧ i ∉ earlier ∧ is = earlier ++ [i]) {bs : List β} {earlier is : List ℕ} :
    bs.foldlM step earlier = .ok is ↔ ∃ rest, List.Forall₂ R bs rest ∧ rest.Nodup ∧
      (∀ i ∈ rest, i ∉ earlier) ∧ is = earlier ++ rest := by
  induction bs generalizing earlier with
  | nil =>
    rw [List.foldlM_nil, except_pure_eq_ok]
    constructor
    · rintro rfl
      exact ⟨[], .nil, List.nodup_nil, nofun, (List.append_nil _).symm⟩
    · rintro ⟨rest, all, -, -, rfl⟩
      cases all
      exact (List.append_nil _).symm
  | cons b bs ih =>
    rw [List.foldlM_cons, except_bind_eq_ok]
    constructor
    · rintro ⟨next, first, run⟩
      obtain ⟨i, own, fresh, rfl⟩ := (adds _ _ _).mp first
      obtain ⟨rest, others, distinct, later, rfl⟩ := ih.mp run
      have apart : i ∉ rest := fun again =>
        later i again (List.mem_append_right _ List.mem_cons_self)
      refine ⟨i :: rest, .cons own others, List.nodup_cons.mpr ⟨apart, distinct⟩,
        List.forall_mem_cons.mpr ⟨fresh, fun j hj => ?_⟩, by simp⟩
      exact fun before => later j hj (List.mem_append_left _ before)
    · rintro ⟨_, all, distinct, new, rfl⟩
      cases all with
      | @cons _ i _ rest own others =>
        rcases List.nodup_cons.mp distinct with ⟨apart, distinct⟩
        rcases List.forall_mem_cons.mp new with ⟨fresh, new⟩
        refine ⟨earlier ++ [i], (adds _ _ _).mpr ⟨i, own, fresh, rfl⟩,
          ih.mpr ⟨rest, others, distinct, fun j hj => ?_, by simp⟩⟩
        rw [List.mem_append, not_or, List.mem_singleton]
        exact ⟨new j hj, fun same => apart (same ▸ hj)⟩

/-- The nodes of a combination, in order and none of them twice. -/
theorem Orders.indices_eq_ok_iff (h : d.Orders ns) (assembled : d.phase ≠ .building)
    {names : List String} {is : List ℕ} :
    ForbiddenPath.indices d names = .ok is ↔ List.Forall₂ d.Located names is ∧ is.Nodup := by
  refine (foldlM_gather (h.locate_eq_ok_iff assembled)).trans ?_
  simp

/-- Different names have different positions. -/
theorem Orders.nodup_iff_of_located (h : d.Orders ns) {names : List String} {is : List ℕ}
    (located : List.Forall₂ d.Located names is) : is.Nodup ↔ names.Nodup := by
  have named : names = is.map d.nameOf := by
    rw [← List.forall₂_eq_eq_eq, List.forall₂_map_right_iff]
    refine located.imp fun name i here => ?_
    rcases here with ⟨n, hn, named, -⟩
    rw [nameOf_eq hn, named]
  have placed : names.map (fun name => (d.position? name).getD 0) = is := by
    rw [← List.forall₂_eq_eq_eq, List.forall₂_map_left_iff]
    refine located.imp fun name i here => ?_
    rw [h.position?_of_located here]
    rfl
  constructor
  · intro distinct
    rw [← placed] at distinct
    exact distinct.of_map
  · intro distinct
    rw [named] at distinct
    exact distinct.of_map

theorem combination_nil {refs : List StateRef} {states : List ℕ} :
    ForbiddenPath.combination d [] refs = .ok states ↔ refs = [] ∧ states = [] := by
  unfold ForbiddenPath.combination
  cases refs with
  | nil => exact except_mapM_nil.trans (and_iff_right rfl).symm
  | cons ref refs => exact iff_of_false nofun fun h => by cases h.1

/-- One more state of a combination. -/
theorem Orders.combination_cons (h : d.Orders ns) (here : d.Located name i) {is : List ℕ}
    {refs : List StateRef} {states : List ℕ} :
    ForbiddenPath.combination d (i :: is) refs = .ok states ↔
      ∃ ref others k rest, refs = ref :: others ∧ MeansState ns name ref k ∧
        ForbiddenPath.combination d is others = .ok rest ∧ states = k :: rest := by
  rcases here with ⟨n, hn, rfl, inner⟩
  cases refs with
  | nil => exact iff_of_false nofun fun ⟨_, _, _, _, h, _⟩ => by cases h
  | cons ref refs =>
    unfold ForbiddenPath.combination
    by_cases same : refs.length = is.length
    · rw [if_neg (by simp [same]), List.zip_cons_cons, except_mapM_cons]
      constructor
      · rintro ⟨k, rest, meant, others, rfl⟩
        dsimp only at meant
        rw [hn] at meant
        refine ⟨ref, refs, k, rest, rfl, (h.stateOf_eq_ok_iff hn inner).mp meant, ?_, rfl⟩
        rw [if_neg (not_not.mpr same)]
        exact others
      · rintro ⟨_, _, k, rest, listed, meant, others, rfl⟩
        obtain ⟨rfl, rfl⟩ := List.cons.inj listed
        rw [if_neg (not_not.mpr same)] at others
        refine ⟨k, rest, ?_, others, rfl⟩
        dsimp only
        rw [hn]
        exact (h.stateOf_eq_ok_iff hn inner).mpr meant
    · rw [if_pos (by simpa using same)]
      refine iff_of_false nofun ?_
      rintro ⟨_, _, k, rest, listed, -, others, -⟩
      obtain ⟨rfl, rfl⟩ := List.cons.inj listed
      rw [if_pos same] at others
      cases others

/-- A combination is resolved if each of its references means a state. -/
theorem Orders.exists_combination (h : d.Orders ns) {names : List String} {is : List ℕ}
    (located : List.Forall₂ d.Located names is) {refs : List StateRef}
    (meant : List.Forall₂ (fun name ref => ∃ k, MeansState ns name ref k) names refs) :
    ∃ states, ForbiddenPath.combination d is refs = .ok states := by
  induction located generalizing refs with
  | nil =>
    cases meant
    exact ⟨[], combination_nil.mpr ⟨rfl, rfl⟩⟩
  | cons here _ ih =>
    cases meant with
    | cons first others =>
      rcases first with ⟨k, first⟩
      rcases ih others with ⟨rest, run⟩
      exact ⟨k :: rest, (h.combination_cons here).mpr ⟨_, _, k, rest, rfl, first, run, rfl⟩⟩

/-- A path takes the states of one combination if it takes, at each named node, the state that the
combination means there. -/
theorem Orders.takes_iff (h : d.Orders ns) {names : List String} {is : List ℕ}
    (located : List.Forall₂ d.Located names is) {refs : List StateRef} {p : Path} :
    (∃ states, ForbiddenPath.combination d is refs = .ok states ∧ is.mapM (p[·]?) = some states) ↔
      Takes d ns names refs p := by
  unfold Takes
  induction located generalizing refs with
  | nil =>
    rw [List.forall₂_nil_left_iff]
    simp only [combination_nil]
    constructor
    · rintro ⟨_, ⟨none, -⟩, -⟩
      exact none
    · rintro rfl
      exact ⟨[], ⟨rfl, rfl⟩, rfl⟩
  | @cons name i names is here _ ih =>
    rw [List.forall₂_cons_left_iff]
    constructor
    · rintro ⟨_, run, taken⟩
      obtain ⟨ref, others, k, rest, rfl, meant, resolved, rfl⟩ := (h.combination_cons here).mp run
      rw [List.mapM_cons] at taken
      rcases Option.bind_eq_some_iff.mp taken with ⟨k', own, taken⟩
      rcases Option.bind_eq_some_iff.mp taken with ⟨rest', follow, same⟩
      obtain ⟨rfl, rfl⟩ : k' = k ∧ rest' = rest := by simpa using same
      exact ⟨ref, others, ⟨i, k', h.position?_of_located here, meant, own⟩,
        ih.mp ⟨rest', resolved, follow⟩, rfl⟩
    · rintro ⟨ref, others, ⟨j, k, position, meant, own⟩, follow, rfl⟩
      obtain rfl : i = j := Option.some.inj ((h.position?_of_located here).symm.trans position)
      rcases ih.mpr follow with ⟨rest, run, follow⟩
      refine ⟨k :: rest,
        (h.combination_cons here).mpr ⟨ref, others, k, rest, rfl, meant, run, rfl⟩, ?_⟩
      rw [List.mapM_cons, own, follow]
      rfl

theorem Orders.ofNames_eq_ok_iff (h : d.Orders ns) (assembled : d.phase ≠ .building)
    {s : ForbiddenSection} {f : ForbiddenPath} :
    ForbiddenPath.ofNames d s.nodes s.states = .ok f ↔ s.nodes ≠ [] ∧
      ∃ is tuples, List.Forall₂ d.Located s.nodes is ∧ is.Nodup ∧
        s.states.mapM (ForbiddenPath.combination d is) = .ok tuples ∧
        f = ForbiddenPath.ofIndices is tuples := by
  unfold ForbiddenPath.ofNames
  by_cases none : s.nodes = []
  · rw [if_pos none]
    exact iff_of_false nofun fun h => h.1 none
  · rw [if_neg none, and_iff_right none, except_bind_eq_ok]
    simp only [h.indices_eq_ok_iff assembled, except_bind_eq_ok, except_pure_eq_ok]
    constructor
    · rintro ⟨is, ⟨located, distinct⟩, tuples, run, rfl⟩
      exact ⟨is, tuples, located, distinct, run, rfl⟩
    · rintro ⟨is, tuples, located, distinct, run, rfl⟩
      exact ⟨is, ⟨located, distinct⟩, tuples, run, rfl⟩

/-- A section whose names and references mean something is refused only for its list of nodes. -/
theorem Orders.exists_ofNames (h : d.Orders ns) (assembled : d.phase ≠ .building)
    {s : ForbiddenSection} (known : ∀ name ∈ s.nodes, ∃ n ∈ ns, n.name = name ∧ n.isValue = false)
    (meant : ∀ refs ∈ s.states,
      List.Forall₂ (fun name ref => ∃ k, MeansState ns name ref k) s.nodes refs) :
    (∃ f, ForbiddenPath.ofNames d s.nodes s.states = .ok f) ↔ s.nodes ≠ [] ∧ s.nodes.Nodup := by
  simp only [h.ofNames_eq_ok_iff assembled]
  constructor
  · rintro ⟨_, some, is, _, located, distinct, -, -⟩
    exact ⟨some, (h.nodup_iff_of_located located).mp distinct⟩
  · rintro ⟨some, distinct⟩
    obtain ⟨is, located⟩ : ∃ is, List.Forall₂ d.Located s.nodes is := by
      refine ⟨s.nodes.map fun name => (d.position? name).getD 0, ?_⟩
      rw [List.forall₂_map_right_iff, List.forall₂_same]
      intro name hname
      rcases known name hname with ⟨n, hn, rfl, inner⟩
      rcases h.exists_located hn inner with ⟨i, here⟩
      rwa [h.position?_of_located here]
    rcases exists_except_mapM fun refs hrefs => h.exists_combination located (meant refs hrefs)
      with ⟨tuples, run⟩
    exact ⟨_, some, is, tuples, located, (h.nodup_iff_of_located located).mpr distinct, run, rfl⟩

/-- The forbidden path of a section covers the paths that take one of the combinations. -/
theorem Orders.covers_ofNames (h : d.Orders ns) (assembled : d.phase ≠ .building)
    {s : ForbiddenSection} {f : ForbiddenPath}
    (run : ForbiddenPath.ofNames d s.nodes s.states = .ok f) (p : Path) :
    f.covers p = true ↔ ∃ refs ∈ s.states, Takes d ns s.nodes refs p := by
  obtain ⟨-, is, tuples, located, -, each, rfl⟩ := (h.ofNames_eq_ok_iff assembled).mp run
  have listed {states : List ℕ} : states ∈ tuples ↔
      ∃ refs ∈ s.states, ForbiddenPath.combination d is refs = .ok states := by
    constructor
    · exact exists_of_mem_except_mapM each
    · rintro ⟨refs, hrefs, resolved⟩
      rcases except_eq_ok_of_mem_mapM each hrefs with ⟨states', hstates, resolved'⟩
      rwa [Except.ok.inj (resolved.symm.trans resolved')]
  -- The combinations are stored without repetitions, which does not change what they cover.
  simp only [← h.takes_iff located]
  unfold ForbiddenPath.covers ForbiddenPath.ofIndices
  dsimp only
  cases taken : is.mapM (p[·]?) with
  | none => simp
  | some states =>
    dsimp only
    rw [List.contains_iff_mem, List.mem_eraseDups, listed]
    simp

/-! ## Forced states -/

/-- One more forced state. -/
theorem Orders.force_eq_ok_iff (h : d.Orders ns) (assembled : d.phase ≠ .building)
    (fixed : FixedPath) (b : String × StateRef) (out : FixedPath) :
    (do
      let (i, n) ← d.lookup b.1
      if n.isValue then .error (.invalidFixedPath (.valueNode b.1))
      let state ← stateOf n b.2
      if (fixed.get? i).isSome then .error (.invalidFixedPath (.repeated b.1))
      pure (fixed.insert i state) : Except (DiagramError α) FixedPath) = .ok out ↔
    ∃ i k, d.Located b.1 i ∧ MeansState ns b.1 b.2 k ∧ fixed.get? i = none ∧
      out = fixed.insert i k := by
  constructor
  · intro run
    rcases except_bind_eq_ok.mp run with ⟨⟨i, n⟩, found, run⟩
    rcases (h.lookup_eq_ok_iff assembled).mp found with ⟨hn, named⟩
    dsimp only at run
    split at run
    case isTrue => cases run
    case isFalse inner =>
      have inner : n.isValue = false := by simpa using inner
      rcases except_bind_eq_ok.mp run with ⟨k, meant, run⟩
      split at run
      case isTrue => cases run
      case isFalse fresh =>
        refine ⟨i, k, ⟨n, hn, named, inner⟩, ?_, by simpa using fresh, ?_⟩
        · rw [← named]
          exact (h.stateOf_eq_ok_iff hn inner).mp meant
        · exact (except_pure_eq_ok.mp run).symm
  · rintro ⟨i, k, ⟨n, hn, named, inner⟩, meant, fresh, rfl⟩
    refine except_bind_eq_ok.mpr ⟨(i, n), (h.lookup_eq_ok_iff assembled).mpr ⟨hn, named⟩, ?_⟩
    rw [← named] at meant
    dsimp only
    rw [inner]
    refine except_bind_eq_ok.mpr ⟨k, (h.stateOf_eq_ok_iff hn inner).mpr meant, ?_⟩
    rw [fresh]
    rfl

/-- A reference means at most one state. -/
theorem Orders.eq_of_meansState (h : d.Orders ns) {ref : StateRef} {k k' : ℕ}
    (meant : MeansState ns name ref k) (meant' : MeansState ns name ref k') : k = k' := by
  rcases meant with ⟨n, hn, rfl, -, resolved⟩
  rcases meant' with ⟨m, hm, named, -, resolved'⟩
  rw [List.inj_on_of_nodup_map h.names hm hn named, resolved] at resolved'
  exact Option.some.inj resolved'

theorem Orders.eq_of_located (h : d.Orders ns) {i j : ℕ} (here : d.Located name i)
    (there : d.Located name j) : i = j :=
  Option.some.inj ((h.position?_of_located here).symm.trans (h.position?_of_located there))

/-- Where a reference means a state, its node has a position among those with states. -/
theorem Orders.located_and_means_iff (h : d.Orders ns) {ref : StateRef} {k : ℕ} :
    d.Located name i ∧ MeansState ns name ref k ↔
      d.position? name = some i ∧ MeansState ns name ref k := by
  refine and_congr_left fun meant => ⟨h.position?_of_located, fun position => ?_⟩
  rcases meant with ⟨n, hn, rfl, inner, -⟩
  rcases h.exists_located hn inner with ⟨j, here⟩
  rwa [← Option.some.inj ((h.position?_of_located here).symm.trans position)]

theorem nameOf_of_located (here : d.Located name i) : d.nameOf i = name := by
  rcases here with ⟨n, hn, named, -⟩
  rw [nameOf_eq hn, named]

section Forcing

variable {step : FixedPath → String × StateRef → Except (DiagramError α) FixedPath}
  {bs : List (String × StateRef)}

/-- Each step forces a new node to the state that is meant. -/
def Forces (d : Diagram α) (ns : List Node)
    (step : FixedPath → String × StateRef → Except (DiagramError α) FixedPath) : Prop :=
  ∀ fixed b out, step fixed b = .ok out ↔
    ∃ i k, d.Located b.1 i ∧ MeansState ns b.1 b.2 k ∧ fixed.get? i = none ∧
      out = fixed.insert i k

/-- What means something is forced, unless a node is forced twice. -/
theorem Orders.exists_forced (h : d.Orders ns) (forces : Forces d ns step)
    (meant : ∀ b ∈ bs, ∃ k, MeansState ns b.1 b.2 k) {start : FixedPath} :
    (∃ o, bs.foldlM step start = .ok o) ↔ (bs.map (·.1)).Nodup ∧
      ∀ b ∈ bs, ∀ i, d.Located b.1 i → start.get? i = none := by
  induction bs generalizing start with
  | nil => exact iff_of_true ⟨start, rfl⟩ ⟨List.nodup_nil, nofun⟩
  | cons b bs ih =>
    rcases List.forall_mem_cons.mp meant with ⟨⟨k, own⟩, others⟩
    obtain ⟨i, here⟩ : ∃ i, d.Located b.1 i := by
      rcases own with ⟨n, hn, named, inner, -⟩
      exact named ▸ h.exists_located hn inner
    have first {out : FixedPath} : step start b = .ok out ↔
        start.get? i = none ∧ out = start.insert i k := by
      rw [forces]
      constructor
      · rintro ⟨j, l, there, own', fresh, rfl⟩
        rw [h.eq_of_located here there, h.eq_of_meansState own own']
        exact ⟨fresh, rfl⟩
      · rintro ⟨fresh, rfl⟩
        exact ⟨i, k, here, own, fresh, rfl⟩
    -- What is forced later has to avoid the node that is forced here, and a node is known by its
    -- name.
    have later : (∀ b' ∈ bs, ∀ j, d.Located b'.1 j → (start.insert i k).get? j = none) ↔
        b.1 ∉ bs.map (·.1) ∧ ∀ b' ∈ bs, ∀ j, d.Located b'.1 j → start.get? j = none := by
      simp only [FixedPath.get?_insert]
      constructor
      · intro free
        refine ⟨fun again => ?_, fun b' hb' j there => ?_⟩
        · rcases List.mem_map.mp again with ⟨b', hb', same⟩
          have taken := free b' hb' i (same ▸ here)
          rw [if_pos rfl] at taken
          cases taken
        · have taken := free b' hb' j there
          split at taken
          case isTrue => cases taken
          case isFalse => exact taken
      · rintro ⟨once, free⟩ b' hb' j there
        rw [if_neg, free b' hb' j there]
        rintro rfl
        have same : b'.1 = b.1 := (nameOf_of_located there).symm.trans (nameOf_of_located here)
        exact once (same ▸ List.mem_map_of_mem hb')
    simp only [List.foldlM_cons, except_bind_eq_ok, first]
    rw [List.map_cons, List.nodup_cons, List.forall_mem_cons]
    constructor
    · rintro ⟨o, _, ⟨fresh, rfl⟩, run⟩
      rcases (ih others).mp ⟨o, run⟩ with ⟨distinct, free⟩
      rcases later.mp free with ⟨once, free⟩
      refine ⟨⟨once, distinct⟩, fun j there => ?_, free⟩
      rw [← h.eq_of_located here there, fresh]
    · rintro ⟨⟨once, distinct⟩, own, free⟩
      rcases (ih others).mpr ⟨distinct, later.mpr ⟨once, free⟩⟩ with ⟨o, run⟩
      exact ⟨o, _, ⟨own i here, rfl⟩, run⟩

/-- A node is forced to the state that is given for its name. -/
theorem Orders.get?_forced (h : d.Orders ns) (forces : Forces d ns step) {start o : FixedPath}
    (run : bs.foldlM step start = .ok o) {i k : ℕ} :
    o.get? i = some k ↔
      start.get? i = some k ∨ ∃ b ∈ bs, d.Located b.1 i ∧ MeansState ns b.1 b.2 k := by
  induction bs generalizing start with
  | nil =>
    cases run
    simp
  | cons b bs ih =>
    rcases except_bind_eq_ok.mp run with ⟨out, first, run⟩
    obtain ⟨j, l, here, own, fresh, rfl⟩ := (forces start b out).mp first
    have inserted : (start.insert j l).get? i = some k ↔
        start.get? i = some k ∨ d.Located b.1 i ∧ MeansState ns b.1 b.2 k := by
      -- At the node of the entry nothing was forced before, and its reference means one state only.
      rw [FixedPath.get?_insert]
      by_cases same : i = j
      · subst same
        rw [if_pos rfl, fresh]
        constructor
        · intro equal
          obtain rfl := Option.some.inj equal
          exact .inr ⟨here, own⟩
        · rintro (none | ⟨-, meant⟩)
          · cases none
          · rw [h.eq_of_meansState own meant]
      · rw [if_neg same]
        exact (or_iff_left fun other => same (h.eq_of_located other.1 here)).symm
    rw [ih run, inserted, or_assoc]
    refine or_congr_right ?_
    simp only [List.mem_cons, or_and_right, exists_or, exists_eq_left]

end Forcing

end Diagram

/-! ## Options of a validated file -/

/-- What a file forbids and forces is what its diagram is asked to leave out.  On a validated file
names and states are never at fault: the options are refused only where a forbidden section has no
nodes or a node twice, or where a node is forced twice.  Otherwise a node is forced to the state
that the file gives for its name, and each forbidden path covers the paths that take one of the
combinations of its section at the named nodes. -/
theorem options_of_validate [Scalar α] {f : DiagramFile α} {d : Diagram α}
    (valid : f.validate = .ok ()) (built : f.build = .ok d) :
    ((∃ o, f.pathVariableOptions d = .ok o) ↔
      (∀ s ∈ f.model.forbidden, s.nodes ≠ [] ∧ s.nodes.Nodup) ∧
        (f.model.fixed.map (·.1)).Nodup) ∧
    ∀ o, f.pathVariableOptions d = .ok o →
      (∀ i k, o.fixed.get? i = some k ↔
        ∃ b ∈ f.model.fixed, d.position? b.1 = some i ∧ MeansState f.nodes b.1 b.2 k) ∧
      List.Forall₂ (fun s c => ∀ p, c.covers p = true ↔
        ∃ refs ∈ s.states, Takes d f.nodes s.nodes refs p) f.model.forbidden o.forbidden := by
  have accepted := DiagramFile.accepted_of_validate valid
  rcases accepted.orders built with ⟨orders, generated⟩
  have assembled : d.phase ≠ .building := by
    rw [generated]
    decide
  have forces : Forces d f.nodes _ := orders.force_eq_ok_iff assembled
  have combined (s : ForbiddenSection) (hs : s ∈ f.model.forbidden) :=
    orders.exists_ofNames assembled (accepted.forbidden s hs).1 (accepted.forbidden s hs).2
  have forced : (∃ o, FixedPath.ofNames d f.model.fixed = .ok o) ↔
      (f.model.fixed.map (·.1)).Nodup := by
    refine (orders.exists_forced forces accepted.fixed).trans (and_iff_left fun b _ i _ => ?_)
    exact FixedPath.get?_empty i
  have parts {o : PathVariableOptions α} (run : f.pathVariableOptions d = .ok o) :
      (f.model.forbidden.mapM fun s => ForbiddenPath.ofNames d s.nodes s.states) =
          .ok o.forbidden ∧ FixedPath.ofNames d f.model.fixed = .ok o.fixed := by
    rcases except_bind_eq_ok.mp run with ⟨forbidden, first, run⟩
    rcases except_bind_eq_ok.mp run with ⟨fixed, second, run⟩
    cases except_pure_eq_ok.mp run
    exact ⟨first, second⟩
  refine ⟨⟨?_, ?_⟩, fun o run => ⟨fun i k => ?_, ?_⟩⟩
  · rintro ⟨o, run⟩
    refine ⟨fun s hs => ?_, forced.mp ⟨_, (parts run).2⟩⟩
    rcases except_eq_ok_of_mem_mapM (parts run).1 hs with ⟨c, -, found⟩
    exact (combined s hs).mp ⟨c, found⟩
  · rintro ⟨listed, once⟩
    rcases exists_except_mapM fun s hs => (combined s hs).mpr (listed s hs) with ⟨cs, first⟩
    rcases forced.mpr once with ⟨fixed, second⟩
    exact exists_except_bind first (exists_except_bind second ⟨_, rfl⟩)
  · have start : FixedPath.empty.get? i ≠ some k := by
      rw [FixedPath.get?_empty]
      exact nofun
    rw [orders.get?_forced forces (parts run).2, or_iff_right start]
    simp only [orders.located_and_means_iff]
  · refine (except_mapM_eq_ok_iff.mp (parts run).1).imp fun s c found => ?_
    exact orders.covers_ofNames assembled found

/-- The wager where betting is forbidden by naming the bet twice. -/
def doubledFile : DiagramFile Exact :=
  { wagerFile true .default with
    model := { ModelSection.default with
      forbidden := [⟨["bet", "bet"], [[.name "yes", .name "yes"]]⟩] } }

/-- The repetition passes validation and building, and is refused with the options. -/
theorem options_of_validate_doubled : doubledFile.validate = .ok () ∧
    ∃ d, doubledFile.build = .ok d ∧ ¬ ∃ o, doubledFile.pathVariableOptions d = .ok o := by
  have valid : doubledFile.validate = .ok () := except_eq_ok_of_isOk () (by decide +kernel)
  have built : doubledFile.build = .ok (wager true) := except_eq_ok_of_isOk _ (by decide +kernel)
  refine ⟨valid, wager true, built, fun accepted => ?_⟩
  have once := ((options_of_validate valid built).1.mp accepted).1 _ List.mem_cons_self
  exact absurd once.2 (by decide)

end Influence
