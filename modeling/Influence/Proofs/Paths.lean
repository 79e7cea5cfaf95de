import Mathlib.Algebra.Order.BigOperators.GroupWithZero.List
import Mathlib.Data.List.GetD
import Mathlib.Data.List.Nodup
import Mathlib.Data.List.TakeWhile
import Influence.Path.Enumeration
import Influence.Proofs.Position

/-!
# Enumeration of paths

`Paths.toList` of a fresh position is `Paths.all`, the list of all paths through the
coordinates (`toList_ofCoordinates`): every path once (`nodup_all`), each coordinate one of
its states (`mem_all`).  `Paths.foldM` runs along this list (`foldM_eq_foldlM`).  Over a plain state space the path of rank `k` stands at position
`k` (`all_getElem?_rank`).
-/

namespace Influence

namespace Coordinate

theorem states_eq_start_cons {c : Coordinate} (h : c.isEmpty = false) :
    c.states = c.start :: c.statesAfter c.start := by
  cases c with
  | held state => rfl
  | free count =>
    have hc : count ≠ 0 := by simpa [isEmpty] using h
    obtain ⟨n, rfl⟩ := Nat.exists_eq_succ_of_ne_zero hc
    simp [states, start, statesAfter, List.range_eq_range', List.range'_succ]

theorem states_eq_nil {c : Coordinate} (h : c.isEmpty = true) : c.states = [] := by
  cases c with
  | held state => cases h
  | free count =>
    have hc : count = 0 := by simpa [isEmpty] using h
    subst hc
    rfl

theorem nodup_states (c : Coordinate) : c.states.Nodup := by
  cases c with
  | held state => exact List.nodup_singleton state
  | free count => exact List.nodup_range

@[simp] theorem mem_states_free {count s : ℕ} : s ∈ (free count).states ↔ s < count :=
  List.mem_range

@[simp] theorem mem_states_held {state s : ℕ} : s ∈ (held state).states ↔ s = state :=
  List.mem_singleton

theorem ofStates_empty (states : List ℕ) :
    ofStates states FixedPath.empty = states.map free := by
  unfold ofStates
  conv_rhs => rw [← List.zipIdx_map_fst 0 states, List.map_map]
  rfl

end Coordinate

namespace Paths

/-! ## The list of all paths -/

theorem all_eq_cons {cs : List Coordinate} (h : cs.any Coordinate.isEmpty = false) :
    all cs = cs.map Coordinate.start :: after cs (cs.map Coordinate.start) := by
  induction cs with
  | nil => rfl
  | cons c cs ih =>
    rw [List.any_cons, Bool.or_eq_false_iff] at h
    have first : (all cs).map (c.start :: ·) =
        (c.start :: cs.map Coordinate.start) ::
          (after cs (cs.map Coordinate.start)).map (c.start :: ·) := by
      rw [ih h.2, List.map_cons]
    rw [all, Coordinate.states_eq_start_cons h.1, List.flatMap_cons, first, List.map_cons,
      after, List.cons_append]

theorem all_eq_nil {cs : List Coordinate} (h : cs.any Coordinate.isEmpty = true) :
    all cs = [] := by
  induction cs with
  | nil => cases h
  | cons c cs ih =>
    rw [List.any_cons, Bool.or_eq_true] at h
    rw [all]
    rcases h with h | h
    · rw [Coordinate.states_eq_nil h, List.flatMap_nil]
    · rw [ih h]
      simp

/-- A fresh position has every path still to come. -/
@[simp] theorem toList_ofCoordinates (cs : List Coordinate) :
    (ofCoordinates cs).toList = all cs := by
  cases h : cs.any Coordinate.isEmpty with
  | false => simp [ofCoordinates, toList, first?, h, all_eq_cons h]
  | true => simp [ofCoordinates, toList, first?, h, all_eq_nil h]

theorem toList_ofStates (states : List ℕ) :
    (ofStates states).toList = all (states.map Coordinate.free) := by
  rw [ofStates, toList_ofCoordinates, Coordinate.ofStates_empty]

/-- A visit of the paths is a run along their list. -/
theorem foldM_eq_foldlM {ε β : Type} (cs : List Coordinate) (visit : β → Path → Except ε β)
    (b : β) : foldM cs visit b = (all cs).foldlM visit b := by
  induction cs generalizing visit b with
  | nil =>
    rw [foldM, all, List.foldlM_cons]
    exact (bind_pure _).symm
  | cons c cs ih =>
    rw [foldM, all]
    simp only [ih]
    -- One state after the other, each with the paths behind it.
    induction c.states generalizing b with
    | nil => rfl
    | cons s states ih =>
      rw [List.foldlM_cons, List.flatMap_cons, List.foldlM_append, List.foldlM_map]
      exact congrArg _ (funext ih)

theorem mem_all {cs : List Coordinate} {p : Path} :
    p ∈ all cs ↔ List.Forall₂ (fun s c => s ∈ c.states) p cs := by
  induction cs generalizing p with
  | nil => simp [all]
  | cons c cs ih =>
    simp only [all, List.mem_flatMap, List.mem_map, ih]
    constructor
    · rintro ⟨s, hs, q, hq, rfl⟩
      exact .cons hs hq
    · rintro (_ | ⟨hs, hq⟩)
      exact ⟨_, hs, _, hq, rfl⟩

theorem nodup_all (cs : List Coordinate) : (all cs).Nodup := by
  induction cs with
  | nil => exact List.nodup_singleton []
  | cons c cs ih =>
    rw [all, List.nodup_flatMap]
    refine ⟨fun s _ => ih.map (List.cons_injective), ?_⟩
    refine (Coordinate.nodup_states c).imp fun {s t} hst => ?_
    refine List.disjoint_left.mpr fun p hs ht => ?_
    obtain ⟨q, _, rfl⟩ := List.mem_map.mp hs
    obtain ⟨r, _, hr⟩ := List.mem_map.mp ht
    exact hst (List.cons.inj hr).1.symm

/-! ## Plain state spaces -/

theorem mem_all_free {states : List ℕ} {p : Path} :
    p ∈ all (states.map Coordinate.free) ↔ inRange states p = true := by
  rw [mem_all, inRange_iff_forall₂, List.forall₂_map_right_iff]
  simp only [Coordinate.mem_states_free]

theorem mem_toList_ofStates {states : List ℕ} {p : Path} :
    p ∈ (ofStates states).toList ↔ inRange states p = true := by
  rw [toList_ofStates, mem_all_free]

theorem nodup_toList_ofStates (states : List ℕ) : (ofStates states).toList.Nodup := by
  rw [toList_ofStates]
  exact nodup_all _

theorem length_all (cs : List Coordinate) :
    (all cs).length = (cs.map fun c => c.states.length).prod := by
  induction cs with
  | nil => rfl
  | cons c cs ih => simp [all, List.length_flatMap, ih]

theorem length_all_free (states : List ℕ) :
    (all (states.map Coordinate.free)).length = states.prod := by
  simp [length_all, Coordinate.states, Function.comp_def]

theorem length_toList_ofStates (states : List ℕ) :
    (ofStates states).toList.length = states.prod := by
  rw [toList_ofStates, length_all_free]

/-- A path stands at its rank. -/
theorem all_getElem?_rank {states : List ℕ} {p : Path} (h : inRange states p = true) :
    (all (states.map Coordinate.free))[rank states p]? = some p := by
  induction states generalizing p with
  | nil =>
    rw [inRange_iff_forall₂, List.forall₂_nil_right_iff] at h
    subst h
    rfl
  | cons n states ih =>
    cases p with
    | nil => cases h
    | cons s p =>
      obtain ⟨hs, hp⟩ := inRange_cons.mp h
      have rows : ∀ row ∈ (List.range n).map
          (fun s => (all (states.map Coordinate.free)).map (s :: ·)),
          row.length = states.prod := by
        intro row hrow
        obtain ⟨t, _, rfl⟩ := List.mem_map.mp hrow
        rw [List.length_map, length_all_free]
      rw [List.map_cons, all, List.flatMap, rank_cons, Coordinate.states,
        flatten_getElem?_block rows s (rank_lt_prod hp)]
      simp [hs, ih hp]

theorem toList_ofStates_getElem?_rank {states : List ℕ} {p : Path}
    (h : inRange states p = true) : (ofStates states).toList[rank states p]? = some p := by
  rw [toList_ofStates, all_getElem?_rank h]

/-- Only the path of rank `k` stands at position `k`. -/
theorem rank_of_toList_ofStates_getElem? {states : List ℕ} {p : Path} {k : ℕ}
    (h : (ofStates states).toList[k]? = some p) : rank states p = k := by
  have hp : inRange states p = true := mem_toList_ofStates.mp (List.mem_of_getElem? h)
  have hk : rank states p < (ofStates states).toList.length := by
    rw [length_toList_ofStates]
    exact rank_lt_prod hp
  exact (List.getElem?_inj hk (nodup_toList_ofStates states)).mp
    ((toList_ofStates_getElem?_rank hp).trans h.symm)

/-! ## Counting -/

/-- A checked product stops for good where the product of the factors up to there does not fit.  It
does not get past a zero without having come down to zero. -/
private theorem foldl_checked (ns : List ℕ) {m : ℕ} (small : m < Word.count128) :
    ns.foldl (fun acc n => acc.bind fun m =>
        if m * n < Word.count128 then some (m * n) else none) (some m) =
      if m * (ns.takeWhile (0 < ·)).prod < Word.count128 then some (m * ns.prod) else none := by
  induction ns generalizing m with
  | nil => rw [List.foldl_nil, List.takeWhile_nil, List.prod_nil, Nat.mul_one, if_pos small]
  | cons n ns ih =>
    rw [List.foldl_cons, Option.bind_some, List.prod_cons, ← Nat.mul_assoc]
    rcases Nat.eq_zero_or_pos n with rfl | pos
    · rw [List.takeWhile_cons_of_neg (by simp), List.prod_nil, Nat.mul_one, if_pos small,
        Nat.mul_zero, if_pos (by decide), ih (by decide)]
      simp only [Nat.zero_mul]
      rw [if_pos (by decide)]
    · rw [List.takeWhile_cons_of_pos (by simpa using pos), List.prod_cons, ← Nat.mul_assoc]
      by_cases fits : m * n < Word.count128
      · rw [if_pos fits, ih fits]
      · -- The factors before the next zero are positive, so the product does not fit either.
        have failed : ns.foldl (fun acc n => acc.bind fun m =>
            if m * n < Word.count128 then some (m * n) else none) none = none := by
          clear ih
          induction ns with
          | nil => rfl
          | cons _ _ ih => exact ih
        have positive : 0 < (ns.takeWhile (0 < ·)).prod :=
          List.prod_pos fun k hk => by simpa using List.mem_takeWhile_imp hk
        have grows : m * n ≤ m * n * (ns.takeWhile (0 < ·)).prod :=
          Nat.le_mul_of_pos_right _ positive
        rw [if_neg fits, failed, if_neg (by omega)]

/-- A checked product is the product, unless the factors before the first zero do not fit. -/
theorem checkedProduct_eq (ns : List ℕ) :
    checkedProduct ns =
      if (ns.takeWhile (0 < ·)).prod < Word.count128 then some ns.prod else none := by
  rw [checkedProduct, foldl_checked ns (by decide), Nat.one_mul, Nat.one_mul]

end Paths

/-! ## Forced states -/

namespace FixedPath

@[simp] theorem get?_empty (i : ℕ) : FixedPath.empty.get? i = none := rfl

private theorem lookup_insert_go (index state i : ℕ) (entries : List (ℕ × ℕ)) :
    (insert.go index state entries).lookup i =
      if i = index then some state else entries.lookup i := by
  induction entries with
  | nil =>
    rw [insert.go, List.lookup_cons]
    by_cases hi : i = index <;> simp [hi, beq_eq_decide]
  | cons entry entries ih =>
    obtain ⟨j, s⟩ := entry
    by_cases hi : i = index <;> by_cases hj : i = j <;>
      grind [insert.go]

theorem get?_insert (f : FixedPath) (index state i : ℕ) :
    (f.insert index state).get? i = if i = index then some state else f.get? i :=
  lookup_insert_go index state i f.entries

/-- Forcing a list of coordinates to one state. -/
theorem get?_foldl_insert (f : FixedPath) (indices : List ℕ) (state i : ℕ) :
    (indices.foldl (fun f i => f.insert i state) f).get? i =
      if i ∈ indices then some state else f.get? i := by
  induction indices generalizing f with
  | nil => simp
  | cons index indices ih =>
    rw [List.foldl_cons, ih, get?_insert]
    by_cases hi : i ∈ indices
    · simp [hi]
    · simp [hi]

theorem mem_entries_of_get? {f : FixedPath} {i s : ℕ} (h : f.get? i = some s) :
    (i, s) ∈ f.entries := by
  obtain ⟨before, after, hf, _⟩ := List.lookup_eq_some_iff.mp h
  rw [hf]
  exact List.mem_append_right _ List.mem_cons_self

/-- Without a fault every entry forces a coordinate of the space to one of its states. -/
theorem lt_of_fault?_eq_none {f : FixedPath} {states : List ℕ} (h : f.fault? states = none)
    {i s : ℕ} (hs : (i, s) ∈ f.entries) : i < states.length ∧ s < states.getD i 0 := by
  have hi := List.findSome?_eq_none_iff.mp h (i, s) hs
  simp only at hi
  cases hc : states[i]? with
  | none => rw [hc] at hi; cases hi
  | some count =>
    rw [hc] at hi
    have hlt : s < count := by simpa using hi
    exact ⟨(List.getElem?_eq_some_iff.mp hc).1, by rwa [List.getD_eq_getElem?_getD, hc]⟩

theorem fault?_eq_none {f : FixedPath} {states : List ℕ}
    (h : ∀ e ∈ f.entries, e.1 < states.length ∧ e.2 < states.getD e.1 0) :
    f.fault? states = none := by
  refine List.findSome?_eq_none_iff.mpr fun e he => ?_
  obtain ⟨inside, small⟩ := h e he
  rw [List.getD_eq_getElem _ _ inside] at small
  obtain ⟨index, state⟩ := e
  simp only at inside small
  simp only [List.getElem?_eq_getElem inside, if_neg (not_le.mpr small)]

theorem mem_entries_insert {f : FixedPath} {index state : ℕ} {e : ℕ × ℕ}
    (h : e ∈ (f.insert index state).entries) : e = (index, state) ∨ e ∈ f.entries := by
  change e ∈ insert.go index state f.entries at h
  generalize f.entries = entries at h ⊢
  induction entries with
  | nil => exact .inl (List.mem_singleton.mp h)
  | cons entry entries ih =>
    unfold insert.go at h
    split at h
    · exact List.mem_cons.mp h
    · split at h
      · exact (List.mem_cons.mp h).imp_right (List.mem_cons_of_mem _)
      · rcases List.mem_cons.mp h with h | h
        · exact .inr (h ▸ List.mem_cons_self)
        · exact (ih h).imp_right (List.mem_cons_of_mem _)

theorem mem_entries_foldl_insert {f : FixedPath} {indices : List ℕ} {state : ℕ} {e : ℕ × ℕ}
    (h : e ∈ (indices.foldl (fun f i => f.insert i state) f).entries) :
    (e.1 ∈ indices ∧ e.2 = state) ∨ e ∈ f.entries := by
  induction indices generalizing f with
  | nil => exact .inr h
  | cons index indices ih =>
    rcases ih h with ⟨mem, state⟩ | h
    · exact .inl ⟨List.mem_cons_of_mem _ mem, state⟩
    · rcases mem_entries_insert h with rfl | h
      · exact .inl ⟨List.mem_cons_self, rfl⟩
      · exact .inr h

/-- Every coordinate is forced once, by ascending index. -/
def Ordered (f : FixedPath) : Prop := f.entries.Pairwise fun a b => a.1 < b.1

theorem ordered_empty : FixedPath.empty.Ordered := List.Pairwise.nil

theorem Ordered.insert {f : FixedPath} (h : f.Ordered) (index state : ℕ) :
    (f.insert index state).Ordered := by
  obtain ⟨entries⟩ := f
  change (insert.go index state entries).Pairwise fun a b => a.1 < b.1
  have behind {entry : ℕ × ℕ} {entries : List (ℕ × ℕ)} (least : ∀ e ∈ entries, entry.1 < e.1)
      (below : entry.1 < index) : ∀ e ∈ insert.go index state entries, entry.1 < e.1 := by
    intro e he
    rcases mem_entries_insert (f := ⟨entries⟩) he with rfl | he
    · exact below
    · exact least e he
  induction entries with
  | nil => exact List.pairwise_singleton _ _
  | cons entry entries ih =>
    obtain ⟨least, rest⟩ := List.pairwise_cons.mp h
    unfold insert.go
    split
    case isTrue before =>
      apply List.pairwise_cons.mpr
      constructor
      · intro e he
        rcases List.mem_cons.mp he with rfl | he
        · exact before
        · exact before.trans (least e he)
      · exact h
    case isFalse notBefore =>
      split
      case isTrue same => exact List.pairwise_cons.mpr ⟨fun e he => same ▸ least e he, rest⟩
      case isFalse other =>
        exact List.pairwise_cons.mpr ⟨behind least (by omega), ih rest⟩

theorem Ordered.foldl_insert {f : FixedPath} (h : f.Ordered) (pairs : List (ℕ × ℕ)) :
    (pairs.foldl (fun f e => f.insert e.1 e.2) f).Ordered := by
  induction pairs generalizing f with
  | nil => exact h
  | cons pair pairs ih => exact ih (h.insert pair.1 pair.2)

theorem ordered_ofPairs (pairs : List (ℕ × ℕ)) : (ofPairs pairs).Ordered :=
  ordered_empty.foldl_insert pairs

theorem Ordered.mem_entries_iff {f : FixedPath} (h : f.Ordered) {i s : ℕ} :
    (i, s) ∈ f.entries ↔ f.get? i = some s := by
  refine ⟨fun mem => ?_, mem_entries_of_get?⟩
  obtain ⟨before, after, split⟩ := List.append_of_mem mem
  rw [get?, List.lookup_eq_some_iff]
  refine ⟨before, after, split, fun e he => ?_⟩
  have ordered := h
  rw [Ordered, split, List.pairwise_append] at ordered
  have less := ordered.2.2 e he (i, s) List.mem_cons_self
  simpa using less.ne'

/-- Forced states are possible if and only if they are states of coordinates. -/
theorem Ordered.fault?_eq_none_iff {f : FixedPath} (h : f.Ordered) {states : List ℕ} :
    f.fault? states = none ↔
      ∀ i s, f.get? i = some s → i < states.length ∧ s < states.getD i 0 := by
  constructor
  · intro valid i s forced
    exact lt_of_fault?_eq_none valid (mem_entries_of_get? forced)
  · intro possible
    apply fault?_eq_none
    intro e he
    exact possible e.1 e.2 (h.mem_entries_iff.mp he)

end FixedPath

namespace Paths

private theorem mem_ofStates_states {states : List ℕ} {fixed : FixedPath} {i : ℕ}
    (hi : i < states.length) (hi' : i < (Coordinate.ofStates states fixed).length) {s : ℕ} :
    s ∈ (Coordinate.ofStates states fixed)[i].states ↔
      (∀ t, fixed.get? i = some t → s = t) ∧ (fixed.get? i = none → s < states[i]) := by
  simp only [Coordinate.ofStates, List.getElem_map, List.getElem_zipIdx, Nat.zero_add]
  cases fixed.get? i with
  | none => simp
  | some t => simp [eq_comm]

/-- The paths that agree with valid forced states, in the terms of ranges. -/
theorem mem_all_ofStates {states : List ℕ} {fixed : FixedPath} {p : Path}
    (valid : fixed.fault? states = none) :
    p ∈ all (Coordinate.ofStates states fixed) ↔
      inRange states p = true ∧ ∀ i s, fixed.get? i = some s → p[i]? = some s := by
  have hlen : (Coordinate.ofStates states fixed).length = states.length := by
    simp [Coordinate.ofStates]
  rw [mem_all, List.forall₂_iff_get, inRange_iff_getD, and_assoc]
  have lengths : p.length = (Coordinate.ofStates states fixed).length ↔
      p.length = states.length := by rw [hlen]
  refine (and_congr_left' lengths).trans (and_congr_right fun hp =>
    ⟨fun h => ⟨fun i hi => ?_, fun i s hs => ?_⟩, fun h i h₁ h₂ => ?_⟩)
  · have member := (mem_ofStates_states hi _).mp (h i (hp ▸ hi) (hlen ▸ hi))
    rw [List.getD_eq_getElem _ _ (hp ▸ hi), List.getD_eq_getElem _ _ hi]
    cases hf : fixed.get? i with
    | none => exact member.2 hf
    | some t =>
      have bound := FixedPath.lt_of_fault?_eq_none valid (FixedPath.mem_entries_of_get? hf)
      rw [List.getD_eq_getElem _ _ hi] at bound
      exact (member.1 t hf).trans_lt bound.2
  · have hi := (FixedPath.lt_of_fault?_eq_none valid (FixedPath.mem_entries_of_get? hs)).1
    have member := (mem_ofStates_states hi _).mp (h i (hp ▸ hi) (hlen ▸ hi))
    rw [List.getElem?_eq_getElem (hp ▸ hi)]
    exact congrArg some (member.1 s hs)
  · have hi : i < states.length := hp ▸ h₁
    refine (mem_ofStates_states hi _).mpr ⟨fun t ht => ?_, fun _ => ?_⟩
    · have := h.2 i t ht
      rw [List.getElem?_eq_getElem h₁] at this
      exact Option.some.inj this
    · have := h.1 i hi
      rwa [List.getD_eq_getElem _ _ h₁, List.getD_eq_getElem _ _ hi] at this

/-- Being listed, coordinate by coordinate. -/
theorem mem_all_ofStates_iff {states : List ℕ} {fixed : FixedPath}
    (valid : fixed.fault? states = none) {p : Path} :
    p ∈ all (Coordinate.ofStates states fixed) ↔ p.length = states.length ∧
      (∀ i < states.length, p.getD i 0 < states.getD i 0) ∧
      ∀ i s, fixed.get? i = some s → p.getD i 0 = s := by
  rw [mem_all_ofStates valid, inRange_iff_getD, and_assoc]
  refine and_congr_right fun length => and_congr_right fun _ => forall₃_congr fun i s forced => ?_
  have inside : i < p.length := by
    rw [length]
    exact (FixedPath.lt_of_fault?_eq_none valid (FixedPath.mem_entries_of_get? forced)).1
  rw [List.getD_eq_getElem _ _ inside, List.getElem?_eq_getElem inside, Option.some.injEq]

theorem withFixed_eq_ok_iff {ε : Type} {states : List ℕ} {fixed : FixedPath} {ps : Paths} :
    (withFixed states fixed : Except (DiagramError ε) Paths) = .ok ps ↔
      fixed.fault? states = none ∧ ps = ofCoordinates (Coordinate.ofStates states fixed) := by
  unfold withFixed
  cases fixed.fault? states with
  | none => simp [eq_comm]
  | some fault => simp

section WithFixed

variable {ε : Type} {states : List ℕ} {fixed : FixedPath} {ps : Paths}

theorem mem_toList_withFixed
    (h : (withFixed states fixed : Except (DiagramError ε) Paths) = .ok ps) {p : Path} :
    p ∈ ps.toList ↔
      inRange states p = true ∧ ∀ i s, fixed.get? i = some s → p[i]? = some s := by
  obtain ⟨valid, rfl⟩ := withFixed_eq_ok_iff.mp h
  rw [toList_ofCoordinates, mem_all_ofStates valid]

theorem nodup_toList_withFixed
    (h : (withFixed states fixed : Except (DiagramError ε) Paths) = .ok ps) :
    ps.toList.Nodup := by
  obtain ⟨_, rfl⟩ := withFixed_eq_ok_iff.mp h
  rw [toList_ofCoordinates]
  exact nodup_all _

end WithFixed

end Paths

end Influence
