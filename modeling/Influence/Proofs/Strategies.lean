import Influence.Proofs.Assembly
import Influence.Proofs.Paths
import Influence.Strategy.Compatible

/-!
# Strategies and the paths that follow them

A strategy covers a diagram when it has an admissible choice for every decision node and state of
its information, and a path follows it when it takes the choice that the strategy makes on what was
observed before.  There are enough choices then, so `settle` succeeds (`settle_eq_ok`).  What is
observed lies in front of the node, so reading decision coordinates in ascending order leaves chance
coordinates alone and ends in a path that follows (`settled_follows`), and no other path with these
chance coordinates does (`follows_ext`).  Hence `compatiblePaths` lists the paths with the forced
chance states that follow, each once (`compatiblePaths_of_onChance`, `compatiblePaths_eq_ok`), and
what is collected on the way is what they have (`collect_eq`).
-/

namespace Influence

variable {α : Type}

/-- Where keys are different, a search by key finds the entry. -/
theorem find?_key_eq {β : Type} {f : β → ℕ} {bs : List β} (distinct : (bs.map f).Nodup) {b : β}
    (hb : b ∈ bs) : bs.find? (fun b' => f b' == f b) = some b := by
  induction bs with
  | nil => cases hb
  | cons b' bs ih =>
    rw [List.map_cons, List.nodup_cons] at distinct
    rcases List.mem_cons.mp hb with rfl | hb
    · exact List.find?_cons_of_pos (beq_self_eq_true _)
    · rw [List.find?_cons_of_neg, ih distinct.2 hb]
      intro same
      exact distinct.1 (beq_iff_eq.mp same ▸ List.mem_map_of_mem hb)

namespace Diagram.Arranged

variable {d : Diagram α}

theorem mem_decision_lt (h : Arranged d) {i : ℕ} (hi : i ∈ d.decision) : i < d.states.length := by
  rw [h.decision, mem_positionsWhere] at hi
  obtain ⟨n, hn, kind⟩ := hi
  refine Nat.lt_of_not_le fun outside => ?_
  have value := h.outer i n hn outside
  rw [Node.isValue, beq_iff_eq.mp kind] at value
  cases value

theorem mem_chance_lt (h : Arranged d) {i : ℕ} (hi : i ∈ d.chance) : i < d.states.length := by
  rw [h.chance, mem_positionsWhere] at hi
  obtain ⟨n, hn, kind⟩ := hi
  refine Nat.lt_of_not_le fun outside => ?_
  have value := h.outer i n hn outside
  rw [Node.isValue, beq_iff_eq.mp kind] at value
  cases value

/-- Every node with states is a chance or a decision node, and not both. -/
theorem mem_decision_iff (h : Arranged d) {i : ℕ} (hi : i < d.states.length) :
    i ∈ d.decision ↔ i ∉ d.chance := by
  obtain ⟨n, hn, inner, _⟩ := h.inner i hi
  rw [h.mem_decision hn, h.mem_chance hn]
  cases hk : n.kind with
  | chance => simp
  | decision => simp
  | value =>
    rw [Node.isValue, hk] at inner
    cases inner

theorem states_getD_pos (h : Arranged d) {i : ℕ} (hi : i < d.states.length) :
    0 < d.states.getD i 0 := by
  rw [List.getD_eq_getElem _ _ hi]
  exact h.states_pos (List.getElem_mem hi)

theorem lookup_nameOf (h : Arranged d) (assembled : d.phase ≠ .building) {i : ℕ} {n : Node}
    (hn : d.nodes[i]? = some n) : d.lookup (d.nameOf i) = .ok (i, n) := by
  obtain ⟨hi, rfl⟩ := List.getElem?_eq_some_iff.mp hn
  have name : d.nameOf i = d.nodes[i].name := by rw [nameOf, hn]; rfl
  have position : d.position? d.nodes[i].name = some i := by
    rw [position?, List.findIdx?_eq_some_iff_getElem]
    refine ⟨hi, beq_self_eq_true _, fun j hj same => ?_⟩
    have distinct := List.nodup_iff_injective_getElem.mp h.names
    have := @distinct ⟨j, by simpa using hj.trans hi⟩ ⟨i, by simpa using hi⟩
      (by simpa using same)
    exact hj.ne (congrArg Fin.val this)
  unfold lookup indexOf
  rw [if_neg assembled, name, position]
  dsimp only [bind, Except.bind]
  rw [hn]
  rfl

end Diagram.Arranged

/-! ## Admissible choices -/

theorem LocalStrategy.ofChoices_eq_ok_iff {d : Diagram α} (h : d.Arranged)
    (assembled : d.phase ≠ .building) {i : ℕ} (hi : i ∈ d.decision) {choices : List ℕ}
    {l : LocalStrategy} :
    ofChoices d (d.nameOf i) choices = .ok l ↔
      choices.length = entryCount (d.informationShape i) ∧
      (∀ c ∈ choices, c < d.states.getD i 0) ∧
      l = ⟨i, d.nameOf i, d.informationSet i, d.informationShape i, choices⟩ := by
  obtain ⟨n, hn, inner, count⟩ := h.inner i (h.mem_decision_lt hi)
  have kind := (h.mem_decision hn).mp hi
  have states : n.numStates = d.states.getD i 0 := by
    rw [List.getD_eq_getElem?_getD, count]
    rfl
  unfold ofChoices
  rw [h.lookup_nameOf assembled hn]
  dsimp only [bind, Except.bind, pure, Except.pure]
  rw [if_neg (not_not.mpr kind)]
  by_cases length : choices.length = entryCount (d.informationShape i)
  swap
  · rw [if_pos length]
    exact ⟨fun h => (by cases h), fun h => absurd h.1 length⟩
  rw [if_neg (not_not.mpr length), states]
  cases hc : choices.find? fun c => d.states.getD i 0 ≤ c with
  | some c =>
    have large := List.find?_some hc
    refine ⟨fun h => (by cases h), fun ⟨_, small, _⟩ => ?_⟩
    have := small c (List.mem_of_find?_eq_some hc)
    simp only [decide_eq_true_eq] at large
    omega
  | none =>
    refine ⟨fun h => ⟨length, fun c hc' => ?_, (Except.ok.inj h).symm⟩, fun ⟨_, _, h⟩ => h ▸ rfl⟩
    simpa using List.find?_eq_none.mp hc c hc'

/-- The choices are admissible for the decision node, one for every state of its information.  Their
number is said apart: `ofChoices` counts information states in machine words, so where these are too
few it takes a list that is too short. -/
structure LocalStrategy.IsFor (d : Diagram α) (i : ℕ) (l : LocalStrategy) : Prop where
  admissible : ofChoices d (d.nameOf i) l.choices = .ok l
  number : l.choices.length = (d.informationShape i).prod

/-- That choices are admissible can be computed. -/
theorem LocalStrategy.isFor_of_toOption {d : Diagram α} {i : ℕ} {l : LocalStrategy}
    (admissible : (ofChoices d (d.nameOf i) l.choices).toOption = some l)
    (number : l.choices.length = (d.informationShape i).prod) : l.IsFor d i := by
  refine ⟨?_, number⟩
  cases made : ofChoices d (d.nameOf i) l.choices with
  | error e =>
    rw [made] at admissible
    cases admissible
  | ok k =>
    rw [made] at admissible
    exact congrArg Except.ok (Option.some.inj admissible)

/-- The choice along a path. -/
def LocalStrategy.choiceOn (l : LocalStrategy) (p : Path) : ℕ := (l.choiceOn? p).getD 0

namespace Strategy

variable {d : Diagram α} {σ : Strategy}

/-- The strategy has a choice for every decision node and state of its information. -/
def Covers (d : Diagram α) (σ : Strategy) : Prop :=
  ∀ i ∈ d.decision, ∃ l, σ.local? i = some l ∧ l.IsFor d i

/-- Where there is one decision node, that its choices are admissible can be computed. -/
theorem covers_of_single {i : ℕ} (single : d.decision = [i]) {l : LocalStrategy}
    (chosen : σ.local? i = some l)
    (admissible : (LocalStrategy.ofChoices d (d.nameOf i) l.choices).toOption = some l)
    (number : l.choices.length = (d.informationShape i).prod) : σ.Covers d := by
  intro j hj
  rw [single, List.mem_singleton] at hj
  subst hj
  exact ⟨l, chosen, LocalStrategy.isFor_of_toOption admissible number⟩

/-- The choice of a decision node along a path. -/
def choiceAt (σ : Strategy) (i : ℕ) (p : Path) : ℕ := ((σ.local? i).map (·.choiceOn p)).getD 0

/-- The path takes every choice of the strategy. -/
def Follows (d : Diagram α) (σ : Strategy) (p : Path) : Prop :=
  ∀ i ∈ d.decision, p.getD i 0 = σ.choiceAt i p

instance (d : Diagram α) (σ : Strategy) : DecidablePred (σ.Follows d) :=
  fun p => inferInstanceAs (Decidable (∀ i ∈ d.decision, p.getD i 0 = σ.choiceAt i p))

theorem follows_congr {τ : Strategy} (same : ∀ i ∈ d.decision, τ.local? i = σ.local? i)
    {p : Path} : τ.Follows d p ↔ σ.Follows d p :=
  forall₂_congr fun i hi => by rw [choiceAt, same i hi, choiceAt]

theorem Covers.local_eq (h : σ.Covers d) (arranged : d.Arranged) (assembled : d.phase ≠ .building)
    {i : ℕ} (hi : i ∈ d.decision) :
    ∃ choices, σ.local? i =
        some ⟨i, d.nameOf i, d.informationSet i, d.informationShape i, choices⟩ ∧
      choices.length = (d.informationShape i).prod ∧
      ∀ c ∈ choices, c < d.states.getD i 0 := by
  obtain ⟨l, hl, isFor⟩ := h i hi
  obtain ⟨-, small, eq⟩ :=
    (LocalStrategy.ofChoices_eq_ok_iff arranged assembled hi).mp isFor.admissible
  exact ⟨l.choices, by rw [hl, ← eq], isFor.number, small⟩

/-- The strategy lists admissible choices for the decision nodes, in their order. -/
structure IsFor (d : Diagram α) (σ : Strategy) : Prop where
  nodes : σ.locals.map (·.node) = d.decision
  locals : ∀ l ∈ σ.locals, l.IsFor d l.node

theorem IsFor.local?_eq (h : σ.IsFor d) (arranged : d.Arranged) {l : LocalStrategy}
    (hl : l ∈ σ.locals) : σ.local? l.node = some l := by
  refine find?_key_eq (f := LocalStrategy.node) ?_ hl
  rw [h.nodes, arranged.decision]
  exact Diagram.nodup_positionsWhere _ _

/-- A strategy for a diagram covers it. -/
theorem IsFor.covers (h : σ.IsFor d) (arranged : d.Arranged) : σ.Covers d := by
  intro i hi
  rw [← h.nodes] at hi
  obtain ⟨l, hl, rfl⟩ := List.mem_map.mp hi
  exact ⟨l, h.local?_eq arranged hl, h.locals l hl⟩

/-- A strategy for a diagram is what it says of the decision nodes. -/
theorem IsFor.ext {τ : Strategy} (h : σ.IsFor d) (h' : τ.IsFor d) (arranged : d.Arranged)
    (same : ∀ i ∈ d.decision, τ.local? i = σ.local? i) : τ = σ := by
  have listed {ρ : Strategy} (hρ : ρ.IsFor d) : ρ.locals.map some = d.decision.map ρ.local? := by
    rw [← hρ.nodes, List.map_map]
    exact List.map_congr_left fun l hl => (hρ.local?_eq arranged hl).symm
  have locals : τ.locals.map some = σ.locals.map some := by
    rw [listed h', listed h, List.map_congr_left same]
  exact congrArg Strategy.mk (List.map_injective_iff.mpr (Option.some_injective _) locals)

/-- A choice depends on what its node observes. -/
theorem Covers.choiceAt_congr (h : σ.Covers d) (arranged : d.Arranged)
    (assembled : d.phase ≠ .building) {i : ℕ} (hi : i ∈ d.decision) {p q : Path}
    (same : ∀ j ∈ d.informationSet i, p.getD j 0 = q.getD j 0) :
    σ.choiceAt i p = σ.choiceAt i q := by
  obtain ⟨choices, hl, _⟩ := h.local_eq arranged assembled hi
  simp only [choiceAt, hl, Option.map_some, Option.getD_some, LocalStrategy.choiceOn,
    LocalStrategy.choiceOn?, List.map_congr_left same]

theorem Covers.choiceAt_lt (h : σ.Covers d) (arranged : d.Arranged)
    (assembled : d.phase ≠ .building) {i : ℕ} (hi : i ∈ d.decision) (p : Path) :
    σ.choiceAt i p < d.states.getD i 0 := by
  obtain ⟨choices, hl, _, small⟩ := h.local_eq arranged assembled hi
  simp only [choiceAt, hl, Option.map_some, Option.getD_some, LocalStrategy.choiceOn,
    LocalStrategy.choiceOn?]
  generalize dot _ _ = k
  by_cases hk : k < choices.length
  · rw [List.getElem?_eq_getElem hk]
    exact small _ (List.getElem_mem hk)
  · rw [List.getElem?_eq_none (Nat.le_of_not_lt hk)]
    exact arranged.states_getD_pos (arranged.mem_decision_lt hi)

/-! ## Settling decision coordinates -/

/-- A path with its decision coordinates replaced by choices. -/
def settled (σ : Strategy) (decisions : List ℕ) (p : Path) : Path :=
  decisions.foldl (fun p i => p.set i (σ.choiceAt i p)) p

theorem settled_cons (i : ℕ) (decisions : List ℕ) (p : Path) :
    σ.settled (i :: decisions) p = σ.settled decisions (p.set i (σ.choiceAt i p)) := rfl

theorem length_settled (decisions : List ℕ) (p : Path) :
    (σ.settled decisions p).length = p.length := by
  induction decisions generalizing p with
  | nil => rfl
  | cons i decisions ih => rw [settled_cons, ih, List.length_set]

theorem getD_settled_of_notMem {decisions : List ℕ} {j : ℕ} (hj : j ∉ decisions) (p : Path) :
    (σ.settled decisions p).getD j 0 = p.getD j 0 := by
  induction decisions generalizing p with
  | nil => rfl
  | cons i decisions ih =>
    rw [List.mem_cons, not_or] at hj
    rw [settled_cons, ih hj.2, List.getD_eq_getElem?_getD, List.getElem?_set_ne (Ne.symm hj.1),
      ← List.getD_eq_getElem?_getD]

section Covers

variable (h : σ.Covers d) (arranged : d.Arranged) (assembled : d.phase ≠ .building)

include h arranged assembled

/-- Settling in ascending order makes a path follow: the choice of a node is made when all
that it observes has its last state. -/
theorem Covers.settled_follows {decisions : List ℕ} (ascending : decisions.Pairwise (· < ·))
    (decided : ∀ i ∈ decisions, i ∈ d.decision) (p : Path) : ∀ i ∈ decisions, i < p.length →
      (σ.settled decisions p).getD i 0 = σ.choiceAt i (σ.settled decisions p) := by
  induction decisions generalizing p with
  | nil => intro i hi; cases hi
  | cons k decisions ih =>
    obtain ⟨mem, decided⟩ := List.forall_mem_cons.mp decided
    obtain ⟨behind, ascending⟩ := List.pairwise_cons.mp ascending
    intro i hi hlt
    rw [settled_cons]
    rcases List.mem_cons.mp hi with rfl | hi
    · have notMem : i ∉ decisions := fun h => (behind i h).false
      have same : σ.choiceAt i (σ.settled decisions (p.set i (σ.choiceAt i p))) =
          σ.choiceAt i p := by
        refine h.choiceAt_congr arranged assembled mem fun j hj => ?_
        have hji := (arranged.parents i j hj).1
        rw [getD_settled_of_notMem fun h => (hji.trans (behind j h)).false,
          List.getD_eq_getElem?_getD, List.getElem?_set_ne hji.ne', ← List.getD_eq_getElem?_getD]
      rw [same, getD_settled_of_notMem notMem, List.getD_eq_getElem?_getD,
        List.getElem?_set_self hlt, Option.getD_some]
    · exact ih ascending decided _ i hi (by rwa [List.length_set])

/-- Along a path there is a choice. -/
theorem Covers.choiceOn?_eq {i : ℕ} (hi : i ∈ d.decision) {p : Path}
    (hp : inRange d.states p = true) :
    ∃ l, σ.local? i = some l ∧ l.choiceOn? p = some (σ.choiceAt i p) := by
  obtain ⟨l, hl, isFor⟩ := h i hi
  obtain ⟨counted, -, built⟩ :=
    (LocalStrategy.ofChoices_eq_ok_iff arranged assembled hi).mp isFor.admissible
  have fits : (d.informationShape i).prod < Word.count64 := by
    rw [← isFor.number, counted, entryCount_eq]
    exact Nat.mod_lt _ (by decide)
  have observed : inRange l.shape (l.informationSet.map fun j => p.getD j 0) = true := by
    rw [built]
    exact inRange_map_getD hp _ fun j hj => (arranged.parents i j hj).2
  have place : dot (strides l.shape) (l.informationSet.map fun j => p.getD j 0) <
      l.choices.length := by
    have shape : l.shape = d.informationShape i := by rw [built]
    rw [dot_strides_of_lt (shape ▸ fits) observed, isFor.number, ← shape]
    exact rank_lt_prod observed
  refine ⟨l, hl, ?_⟩
  rw [choiceAt, hl, Option.map_some, Option.getD_some, LocalStrategy.choiceOn,
    LocalStrategy.choiceOn?, List.getElem?_eq_getElem place, Option.getD_some]

theorem Covers.settle_eq_ok {decisions : List ℕ} (decided : ∀ i ∈ decisions, i ∈ d.decision)
    {p : Path} (hp : inRange d.states p = true) :
    (σ.settle decisions p : Except (DiagramError α) Path) = .ok (σ.settled decisions p) := by
  induction decisions generalizing p with
  | nil => rfl
  | cons i decisions ih =>
    obtain ⟨mem, decided⟩ := List.forall_mem_cons.mp decided
    obtain ⟨l, hl, choice⟩ := h.choiceOn?_eq arranged assembled mem hp
    have set := inRange_set hp (h.choiceAt_lt arranged assembled mem p)
    rw [settle, List.foldlM_cons, hl]
    simp only [choice]
    exact ih decided set

end Covers

/-! ## Compatible paths -/

/-- Two paths that follow a strategy and agree on chance coordinates are the same. -/
theorem Covers.follows_ext (h : σ.Covers d) (arranged : d.Arranged)
    (assembled : d.phase ≠ .building) {p q : Path} (hp : p.length = d.states.length)
    (hq : q.length = d.states.length) (p_follows : σ.Follows d p) (q_follows : σ.Follows d q)
    (same : ∀ i, i ∉ d.decision → p.getD i 0 = q.getD i 0) : p = q := by
  have coordinate (i : ℕ) : p.getD i 0 = q.getD i 0 := by
    induction i using Nat.strongRecOn with
    | ind i ih =>
      by_cases hi : i ∈ d.decision
      · rw [p_follows i hi, q_follows i hi]
        exact h.choiceAt_congr arranged assembled hi fun j hj => ih j (arranged.parents i j hj).1
      · exact same i hi
  refine List.ext_getElem (hp.trans hq.symm) fun i h₁ h₂ => ?_
  rw [← List.getD_eq_getElem p 0 h₁, ← List.getD_eq_getElem q 0 h₂, coordinate i]

/-- A path with its decision coordinates put to zero. -/
private def base (d : Diagram α) (p : Path) : Path :=
  (List.range p.length).map fun i => if i ∈ d.decision then 0 else p.getD i 0

private theorem getD_base (d : Diagram α) (p : Path) (i : ℕ) :
    (base d p).getD i 0 = if i ∈ d.decision then 0 else p.getD i 0 := by
  by_cases hi : i < p.length
  · rw [List.getD_eq_getElem _ _ (by simpa [base] using hi)]
    simp [base]
  · rw [List.getD_eq_default _ _ (by simpa [base] using hi),
      List.getD_eq_default _ _ (Nat.le_of_not_lt hi), ite_self]

private theorem inRange_base {d : Diagram α} (arranged : d.Arranged) {p : Path}
    (hp : inRange d.states p = true) : inRange d.states (base d p) = true := by
  obtain ⟨length, small⟩ := inRange_iff_getD.mp hp
  refine inRange_iff_getD.mpr ⟨by simpa [base] using length, fun i hi => ?_⟩
  rw [getD_base]
  split
  · exact arranged.states_getD_pos hi
  · exact small i hi

/-- The forced states are states of chance nodes. -/
def OnChance (d : Diagram α) (fixed : FixedPath) : Prop :=
  ∀ i s, fixed.get? i = some s → i ∈ d.chance ∧ s < d.states.getD i 0

theorem onChance_empty (d : Diagram α) : OnChance d .empty := nofun

/-- The forced states, and decision coordinates at zero. -/
def held (d : Diagram α) (fixed : FixedPath) : FixedPath :=
  d.decision.foldl (fun f i => f.insert i 0) fixed

theorem get?_held (d : Diagram α) (fixed : FixedPath) (i : ℕ) :
    (held d fixed).get? i = if i ∈ d.decision then some 0 else fixed.get? i :=
  FixedPath.get?_foldl_insert fixed d.decision 0 i

/-- The paths whose decision coordinates are settled, in their order. -/
def unsettled (d : Diagram α) (fixed : FixedPath) : List Path :=
  Paths.all (Coordinate.ofStates d.states (held d fixed))

section Forced

variable {fixed : FixedPath} (arranged : d.Arranged) (ordered : fixed.Ordered)
  (onChance : OnChance d fixed)

include arranged ordered onChance

theorem fault?_held : (held d fixed).fault? d.states = none := by
  apply FixedPath.fault?_eq_none
  intro e he
  rcases FixedPath.mem_entries_foldl_insert he with ⟨mem, zero⟩ | he
  · have inside := arranged.mem_decision_lt mem
    exact ⟨inside, zero ▸ arranged.states_getD_pos inside⟩
  · obtain ⟨chance, small⟩ := onChance e.1 e.2 (ordered.mem_entries_iff.mp he)
    exact ⟨arranged.mem_chance_lt chance, small⟩

theorem mem_unsettled {p : Path} : p ∈ unsettled d fixed ↔ inRange d.states p = true ∧
    (∀ i s, fixed.get? i = some s → p.getD i 0 = s) ∧ ∀ i ∈ d.decision, p.getD i 0 = 0 := by
  rw [unsettled, Paths.mem_all_ofStates_iff (fault?_held arranged ordered onChance),
    inRange_iff_getD, and_assoc]
  refine and_congr_right fun _ => and_congr_right fun _ => ?_
  constructor
  · intro forced
    constructor
    · intro i s hs
      apply forced
      have chance := (onChance i s hs).1
      rw [get?_held, if_neg fun mem =>
        (arranged.mem_decision_iff (arranged.mem_decision_lt mem)).mp mem chance, hs]
    · intro i hi
      apply forced
      rw [get?_held, if_pos hi]
  · rintro ⟨forced, zero⟩ i s hs
    rw [get?_held] at hs
    split at hs
    case isTrue mem =>
      rw [zero i mem]
      exact Option.some.inj hs
    case isFalse => exact forced i s hs

theorem Covers.unsettledPaths_eq_ok (h : σ.Covers d) :
    σ.unsettledPaths d fixed = .ok (unsettled d fixed) := by
  have chance : fixed.entries.find? (fun e => d.decision.contains e.1) = none := by
    apply List.find?_eq_none.mpr
    intro e he decision
    rw [List.contains_iff_mem] at decision
    exact (arranged.mem_decision_iff (arranged.mem_decision_lt decision)).mp decision
      (onChance e.1 e.2 (ordered.mem_entries_iff.mp he)).1
  have named : d.decision.find? (fun i => (σ.local? i).isNone) = none := by
    apply List.find?_eq_none.mpr
    intro i hi
    obtain ⟨l, hl, _⟩ := h i hi
    simp [hl]
  have run : (Paths.withFixed d.states (held d fixed) : Except (DiagramError α) Paths) =
      .ok (.ofCoordinates (Coordinate.ofStates d.states (held d fixed))) :=
    Paths.withFixed_eq_ok_iff.mpr ⟨fault?_held arranged ordered onChance, rfl⟩
  unfold unsettledPaths
  rw [held] at run
  simp only [chance, named, run]
  exact congrArg Except.ok (Paths.toList_ofCoordinates _)

theorem Covers.compatiblePaths_eq_map (h : σ.Covers d) (assembled : d.phase ≠ .building) :
    σ.compatiblePaths d fixed = .ok ((unsettled d fixed).map (σ.settled d.decision)) := by
  refine except_bind_eq_ok.mpr ⟨_, h.unsettledPaths_eq_ok arranged ordered onChance, ?_⟩
  refine except_mapM_eq_ok_map fun p hp => ?_
  have inside := ((mem_unsettled arranged ordered onChance).mp hp).1
  exact h.settle_eq_ok arranged assembled (fun _ hi => hi) inside

/-- The compatible paths of a strategy that covers its diagram are those with the forced states
that follow it, each listed once. -/
theorem Covers.compatiblePaths_of_onChance (h : σ.Covers d) (assembled : d.phase ≠ .building) :
    ∃ ps, σ.compatiblePaths d fixed = .ok ps ∧ ps.Nodup ∧
      ps.length = (unsettled d fixed).length ∧ ∀ p, p ∈ ps ↔ inRange d.states p = true ∧
        (∀ i s, fixed.get? i = some s → p.getD i 0 = s) ∧ σ.Follows d p := by
  have member {p : Path} := mem_unsettled arranged ordered onChance (p := p)
  have notDecision {i s : ℕ} (hs : fixed.get? i = some s) : i ∉ d.decision := by
    intro mem
    exact (arranged.mem_decision_iff (arranged.mem_decision_lt mem)).mp mem (onChance i s hs).1
  have ascending : d.decision.Pairwise (· < ·) :=
    arranged.decision ▸ Diagram.pairwise_positionsWhere _ _
  have settled {p : Path} (hp : inRange d.states p = true) :
      σ.Follows d (σ.settled d.decision p) :=
    fun i hi => h.settled_follows arranged assembled ascending (fun _ hi => hi) p i hi
      (length_of_inRange hp ▸ arranged.mem_decision_lt hi)
  refine ⟨_, h.compatiblePaths_eq_map arranged ordered onChance assembled, ?_, List.length_map _,
    fun q => ?_⟩
  · refine (Paths.nodup_all _).map_on fun p hp q hq same => ?_
    obtain ⟨hp, -, p_zero⟩ := member.mp hp
    obtain ⟨hq, -, q_zero⟩ := member.mp hq
    have coordinate (i : ℕ) : p.getD i 0 = q.getD i 0 := by
      by_cases hi : i ∈ d.decision
      · rw [p_zero i hi, q_zero i hi]
      · rw [← getD_settled_of_notMem (σ := σ) hi, same, getD_settled_of_notMem hi]
    refine List.ext_getElem ((length_of_inRange hp).trans (length_of_inRange hq).symm)
      fun i h₁ h₂ => ?_
    rw [← List.getD_eq_getElem p 0 h₁, ← List.getD_eq_getElem q 0 h₂, coordinate i]
  · rw [List.mem_map]
    constructor
    · rintro ⟨p, hp, rfl⟩
      obtain ⟨hp, forced, -⟩ := member.mp hp
      obtain ⟨length, small⟩ := inRange_iff_getD.mp hp
      refine ⟨inRange_iff_getD.mpr ⟨(length_settled _ _).trans length, fun i hi => ?_⟩,
        fun i s hs => ?_, settled hp⟩
      · by_cases hdec : i ∈ d.decision
        · rw [settled hp i hdec]
          exact h.choiceAt_lt arranged assembled hdec _
        · rw [getD_settled_of_notMem hdec]
          exact small i hi
      · rw [getD_settled_of_notMem (notDecision hs), forced i s hs]
    · rintro ⟨hq, forced, q_follows⟩
      have hb := inRange_base arranged hq
      refine ⟨base d q, member.mpr ⟨hb, fun i s hs => ?_, fun i hi => ?_⟩, ?_⟩
      · rw [getD_base, if_neg (notDecision hs), forced i s hs]
      · rw [getD_base, if_pos hi]
      · refine h.follows_ext arranged assembled ?_ (length_of_inRange hq) (settled hb) q_follows
          fun i hi => ?_
        · rw [length_settled, length_of_inRange hb]
        · rw [getD_settled_of_notMem hi, getD_base, if_neg hi]

end Forced

/-- The compatible paths of a strategy that covers its diagram are those that follow it, each
listed once. -/
theorem Covers.compatiblePaths_eq_ok (h : σ.Covers d) (arranged : d.Arranged)
    (assembled : d.phase ≠ .building) :
    ∃ ps, σ.compatiblePaths d .empty = .ok ps ∧ ps.Nodup ∧
      ∀ p, p ∈ ps ↔ inRange d.states p = true ∧ σ.Follows d p := by
  obtain ⟨ps, run, distinct, -, member⟩ :=
    h.compatiblePaths_of_onChance arranged FixedPath.ordered_empty (onChance_empty d) assembled
  exact ⟨ps, run, distinct, fun p => (member p).trans (by simp)⟩

/-- What is collected is found on the compatible paths. -/
theorem collect_eq {β : Type} {fixed : FixedPath} {ps : List Path}
    (run : σ.compatiblePaths d fixed = .ok ps)
    (visit : Path → Except (DiagramError α) (Option β)) :
    σ.collect d fixed visit = ps.filterMapM visit := by
  obtain ⟨us, found, run⟩ := except_bind_eq_ok.mp run
  rw [collect, found]
  exact except_filterMapM_bind run visit

end Strategy

end Influence
