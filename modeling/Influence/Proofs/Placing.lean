import Mathlib.Data.List.Flatten
import Mathlib.Data.List.GetD
import Mathlib.Data.List.Nodup
import Mathlib.Data.List.Perm.Basic
import Influence.Diagram.Assembly

/-!
# Placing without counters

Kahn's algorithm counts, for every position, the parents that are not placed yet, and keeps the
positions that miss none.  `placeAll` keeps neither: it looks for the first waiting position whose
parents are all placed.  Both place the same positions in the same order
(`placeReady_eq_placeAll`), because counters and ready positions are at every time what `Tracks`
says of them.
-/

namespace Influence.Diagram

theorem length_erase_lt {waiting : List ℕ} {ready : ℕ → Bool} {p : ℕ}
    (h : waiting.find? ready = some p) : (waiting.erase p).length < waiting.length := by
  have member : p ∈ waiting := List.mem_of_find?_eq_some h
  have positive : 0 < waiting.length := List.length_pos_of_mem member
  rw [List.length_erase_of_mem member]
  omega

/-- Places the waiting positions behind those already placed, each time the first one
whose parents are all placed; what never becomes ready is left out. -/
def placeAll (parents : List (List ℕ)) (placed waiting : List ℕ) : List ℕ :=
  match h : waiting.find? fun p => (parents.getD p []).all placed.contains with
  | none => placed
  | some p =>
    have := length_erase_lt h
    placeAll parents (placed ++ [p]) (waiting.erase p)
termination_by waiting.length

theorem count_childrenOf (parents : List (List ℕ)) (p c : ℕ) :
    (childrenOf parents p).count c = (parents.getD c []).count p := by
  suffices h : ∀ k, ((parents.zipIdx k).flatMap fun r =>
      List.replicate (r.1.count p) r.2).count (k + c) = (parents.getD c []).count p by
    change ((parents.zipIdx 0).flatMap fun r => List.replicate (r.1.count p) r.2).count c = _
    rw [← h 0, Nat.zero_add]
  intro k
  induction parents generalizing c k with
  | nil => rfl
  | cons listed parents ih =>
    rw [List.zipIdx_cons, List.flatMap_cons, List.count_append, List.count_replicate]
    cases c with
    | zero =>
      have behind : ((parents.zipIdx (k + 1)).flatMap fun r =>
          List.replicate (r.1.count p) r.2).count k = 0 := by
        refine List.count_eq_zero.mpr fun member => ?_
        obtain ⟨⟨l, i⟩, hi, member⟩ := List.mem_flatMap.mp member
        obtain rfl := List.eq_of_mem_replicate member
        exact absurd (List.le_snd_of_mem_zipIdx hi) (Nat.not_succ_le_self k)
      rw [Nat.add_zero, behind, if_pos (beq_self_eq_true k)]
      rfl
    | succ c =>
      rw [if_neg (by simp), Nat.zero_add, ← Nat.add_assoc, Nat.add_right_comm, ih c (k + 1)]
      rfl

namespace Placement

/-! ## Releasing -/

section Release

variable {waiting children : List ℕ} {child k : ℕ} {s : Placement}

theorem release_eq (missing : s.missing[child]? = some (k + 1)) :
    release waiting s child = { s with
      missing := s.missing.set child k
      ready := if k = 0 ∧ child ∈ waiting then s.ready.insert child else s.ready } := by
  rw [release, missing]

theorem missing_release (missing : s.missing[child]? = some (k + 1)) (c : ℕ) :
    (release waiting s child).missing.getD c 0 =
      s.missing.getD c 0 - if c = child then 1 else 0 := by
  rw [release_eq missing]
  dsimp only
  by_cases same : c = child
  · subst same
    have inside : c < s.missing.length := (List.getElem?_eq_some_iff.mp missing).1
    rw [if_pos rfl, List.getD_eq_getElem?_getD, List.getD_eq_getElem?_getD,
      List.getElem?_set_self inside, missing]
    rfl
  · rw [if_neg same, List.getD_eq_getElem?_getD, List.getElem?_set_ne (Ne.symm same),
      ← List.getD_eq_getElem?_getD]
    rfl

theorem mem_ready_release (missing : s.missing[child]? = some (k + 1)) (c : ℕ) :
    c ∈ (release waiting s child).ready ↔ c ∈ s.ready ∨ c = child ∧ k = 0 ∧ c ∈ waiting := by
  rw [release_eq missing]
  dsimp only
  split
  case isTrue now =>
    rw [List.mem_insert_iff, or_comm]
    exact or_congr_right ⟨fun same => ⟨same, now.1, same ▸ now.2⟩, And.left⟩
  case isFalse later =>
    refine ⟨.inl, fun h => h.resolve_right ?_⟩
    rintro ⟨rfl, now⟩
    exact later now

theorem nodup_ready_release (missing : s.missing[child]? = some (k + 1)) (distinct : s.ready.Nodup) :
    (release waiting s child).ready.Nodup := by
  rw [release_eq missing]
  dsimp only
  split
  · exact distinct.insert
  · exact distinct

@[simp] theorem placed_release (waiting : List ℕ) (s : Placement) (child : ℕ) :
    (release waiting s child).placed = s.placed := by
  unfold release
  split <;> rfl

@[simp] theorem placed_place (waiting children : List ℕ) (s : Placement) (p : ℕ) :
    (s.place waiting children p).placed = s.placed ++ [p] := by
  have fold (s : Placement) : (children.foldl (release waiting) s).placed = s.placed := by
    induction children generalizing s with
    | nil => rfl
    | cons child children ih => rw [List.foldl_cons, ih, placed_release]
  exact fold _

/-- Releasing counts down what is listed and adds what misses nothing any more. -/
theorem foldl_release (enough : ∀ c, children.count c ≤ s.missing.getD c 0)
    (distinct : s.ready.Nodup) :
    (∀ c, (children.foldl (release waiting) s).missing.getD c 0 =
      s.missing.getD c 0 - children.count c) ∧
    (children.foldl (release waiting) s).ready.Nodup ∧
    ∀ c, c ∈ (children.foldl (release waiting) s).ready ↔ c ∈ s.ready ∨
      c ∈ children ∧ c ∈ waiting ∧ s.missing.getD c 0 = children.count c := by
  induction children generalizing s with
  | nil => simpa using distinct
  | cons child children ih =>
    have count (c : ℕ) : (child :: children).count c =
        children.count c + if c = child then 1 else 0 := by
      rw [List.count_cons]
      simp only [beq_iff_eq, eq_comm (a := c)]
    have here := enough child
    rw [count, if_pos rfl, List.getD_eq_getElem?_getD] at here
    obtain ⟨k, missing⟩ : ∃ k, s.missing[child]? = some (k + 1) := by
      cases found : s.missing[child]? with
      | none => simp [found] at here
      | some m =>
        rw [found, Option.getD_some] at here
        exact ⟨m - 1, by rw [Nat.sub_add_cancel (Nat.le_of_add_left_le here)]⟩
    have still (c : ℕ) :
        children.count c ≤ (release waiting s child).missing.getD c 0 := by
      have := enough c
      rw [count] at this
      rw [missing_release missing]
      omega
    obtain ⟨counted, nodup, ready⟩ := ih still (nodup_ready_release missing distinct)
    rw [List.foldl_cons]
    refine ⟨fun c => ?_, nodup, fun c => ?_⟩
    · rw [counted, missing_release missing, count]
      omega
    · rw [ready, mem_ready_release missing, missing_release missing, count, or_assoc]
      refine or_congr_right ?_
      by_cases same : c = child
      · subst same
        rw [missing, Option.getD_some] at here
        rw [List.getD_eq_getElem?_getD, missing, Option.getD_some, if_pos rfl]
        have listed : 0 < children.count c ↔ c ∈ children := List.count_pos_iff
        simp only [List.mem_cons_self, true_and, Nat.add_sub_cancel, Nat.add_right_cancel_iff]
        constructor
        · rintro (⟨zero, waits⟩ | ⟨-, waits, all⟩)
          · exact ⟨waits, by omega⟩
          · exact ⟨waits, all⟩
        · rintro ⟨waits, all⟩
          rcases Nat.eq_zero_or_pos k with zero | positive
          · exact .inl ⟨zero, waits⟩
          · exact .inr ⟨listed.mp (all ▸ positive), waits, all⟩
      · simp only [same, false_and, false_or, if_false, Nat.sub_zero, Nat.add_zero, List.mem_cons]

theorem spec_place (waiting : List ℕ) (p : ℕ) (enough : ∀ c, children.count c ≤ s.missing.getD c 0)
    (distinct : s.ready.Nodup) :
    (∀ c, (s.place waiting children p).missing.getD c 0 =
      s.missing.getD c 0 - children.count c) ∧
    (s.place waiting children p).ready.Nodup ∧
    ∀ c, c ∈ (s.place waiting children p).ready ↔ c ∈ s.ready.erase p ∨
      c ∈ children ∧ c ∈ waiting ∧ s.missing.getD c 0 = children.count c :=
  foldl_release (s := { s with ready := s.ready.erase p, placed := s.placed ++ [p] }) enough
    (distinct.erase p)

end Release

/-! ## Counters and ready positions -/

/-- Counters and ready positions are what can be read off the positions placed and waiting. -/
structure Tracks (parents : List (List ℕ)) (all : List ℕ) (s : Placement) (waiting : List ℕ) :
    Prop where
  missing : ∀ c, s.missing.getD c 0 = (parents.getD c []).countP fun q => !s.placed.contains q
  distinct : s.ready.Nodup
  ready : ∀ c, c ∈ s.ready ↔ c ∈ waiting ∧ ∀ q ∈ parents.getD c [], q ∈ s.placed
  closed : ∀ c ∈ s.placed, ∀ q ∈ parents.getD c [], q ∈ s.placed
  split : ∀ c, c ∈ waiting ↔ c ∈ all ∧ c ∉ s.placed
  ascending : waiting.Pairwise (· < ·)

namespace Tracks

variable {parents : List (List ℕ)} {all waiting : List ℕ} {s : Placement} {p : ℕ}

theorem start (ascending : all.Pairwise (· < ·)) :
    Tracks parents all { missing := parents.map List.length
                         ready := all.filter fun p => (parents.map List.length).getD p 0 == 0
                         placed := [] } all := by
  have counted (c : ℕ) : (parents.map List.length).getD c 0 = (parents.getD c []).length :=
    List.getD_map parents [] List.length
  refine ⟨fun c => ?_, (ascending.imp Nat.ne_of_lt).filter _, fun c => ?_, fun c hc => ?_,
    fun c => ?_, ascending⟩
  · rw [counted]
    exact (List.countP_eq_length.mpr fun q _ => rfl).symm
  · rw [List.mem_filter, beq_iff_eq, counted, List.length_eq_zero_iff,
      List.eq_nil_iff_forall_not_mem]
    exact and_congr_right fun _ => forall₂_congr fun q _ => (iff_of_eq (by simp)).symm
  · cases hc
  · exact (and_iff_left List.not_mem_nil).symm

/-- With one more position placed, as many less are missing as it is listed. -/
private theorem countP_concat {listed placed : List ℕ} (fresh : p ∉ placed) :
    (listed.countP fun q => !(placed ++ [p]).contains q) =
      (listed.countP fun q => !placed.contains q) - listed.count p := by
  have parts : (listed.countP fun q => !placed.contains q) =
      (listed.countP fun q => !(placed ++ [p]).contains q) + listed.count p := by
    induction listed with
    | nil => rfl
    | cons q listed ih =>
      rw [List.countP_cons, List.countP_cons, List.count_cons, ih]
      by_cases same : q = p
      · subst same
        simp [fresh]
        omega
      · simp [same]
        omega
  rw [parts, Nat.add_sub_cancel]

theorem step (h : Tracks parents all s waiting) (now : p ∈ s.ready) :
    Tracks parents all (s.place all (childrenOf parents p) p) (waiting.erase p) := by
  obtain ⟨waits, before⟩ := (h.ready p).mp now
  obtain ⟨member, fresh⟩ := (h.split p).mp waits
  have apart : waiting.Nodup := h.ascending.imp Nat.ne_of_lt
  have enough (c : ℕ) : (childrenOf parents p).count c ≤ s.missing.getD c 0 := by
    rw [count_childrenOf, h.missing, List.count_eq_countP]
    refine List.countP_mono_left fun q _ same => ?_
    rw [beq_iff_eq.mp same]
    simpa using fresh
  obtain ⟨missing, distinct, ready⟩ := spec_place all p enough h.distinct
  have left (c : ℕ) : (s.place all (childrenOf parents p) p).missing.getD c 0 =
      (parents.getD c []).countP fun q => !(s.placed ++ [p]).contains q := by
    rw [countP_concat fresh, ← h.missing, ← count_childrenOf]
    exact missing c
  have none (c : ℕ) : s.missing.getD c 0 = (childrenOf parents p).count c ↔
      ∀ q ∈ parents.getD c [], q ∈ s.placed ++ [p] := by
    have zero : s.missing.getD c 0 = (childrenOf parents p).count c ↔
        s.missing.getD c 0 - (childrenOf parents p).count c = 0 := by
      have := enough c
      omega
    rw [zero, ← missing c, left c, List.countP_eq_zero]
    refine forall₂_congr fun q _ => ?_
    rw [Bool.not_eq_true, Bool.not_eq_false', List.contains_iff_mem]
  have listed (c : ℕ) : c ∈ childrenOf parents p ↔ p ∈ parents.getD c [] := by
    rw [← List.count_pos_iff, count_childrenOf, List.count_pos_iff]
  refine ⟨fun c => (placed_place all _ s p).symm ▸ left c, distinct, fun c => ?_, ?_, fun c => ?_,
    h.ascending.sublist List.erase_sublist⟩
  · rw [ready, none, listed, h.distinct.mem_erase_iff, h.ready, apart.mem_erase_iff, placed_place]
    constructor
    · rintro (⟨other, waits, all⟩ | ⟨behind, member, all⟩)
      · exact ⟨⟨other, waits⟩, fun q hq => List.mem_append_left _ (all q hq)⟩
      · -- What was placed before, the position itself among it, does not list a fresh position.
        have other : c ≠ p := fun same => fresh (before p (same ▸ behind))
        exact ⟨⟨other, (h.split c).mpr ⟨member, fun early => fresh (h.closed c early p behind)⟩⟩, all⟩
    · rintro ⟨⟨other, waits⟩, all⟩
      by_cases behind : p ∈ parents.getD c []
      · exact .inr ⟨behind, ((h.split c).mp waits).1, all⟩
      · refine .inl ⟨other, waits, fun q hq => ?_⟩
        rcases List.mem_append.mp (all q hq) with early | same
        · exact early
        · exact absurd (List.mem_singleton.mp same ▸ hq) behind
  · intro c hc q hq
    rw [placed_place] at hc ⊢
    refine List.mem_append_left _ ?_
    rcases List.mem_append.mp hc with early | same
    · exact h.closed c early q hq
    · exact before q (List.mem_singleton.mp same ▸ hq)
  · rw [apart.mem_erase_iff, h.split, placed_place, List.mem_append, List.mem_singleton, not_or]
    exact ⟨fun ⟨other, member, early⟩ => ⟨member, early, other⟩,
      fun ⟨member, early, other⟩ => ⟨other, member, early⟩⟩

end Tracks

/-- The first of the elements in ascending order that are wanted is the least one. -/
private theorem find?_eq_some_of_least {xs : List ℕ} {wanted : ℕ → Bool} {p : ℕ}
    (ascending : xs.Pairwise (· < ·)) (member : p ∈ xs) (hp : wanted p = true)
    (least : ∀ q ∈ xs, wanted q = true → p ≤ q) : xs.find? wanted = some p := by
  obtain ⟨before, after, rfl⟩ := List.append_of_mem member
  refine List.find?_eq_some_iff_append.mpr ⟨hp, before, after, rfl, fun q hq => ?_⟩
  rw [Bool.not_eq_true', Bool.eq_false_iff]
  intro early
  have less := (List.pairwise_append.mp ascending).2.2 q hq p List.mem_cons_self
  exact absurd (least q (List.mem_append_left _ hq) early) (Nat.not_le_of_lt less)

/-- Kahn's algorithm goes on as placing without counters does. -/
theorem run_eq_placeAll {parents : List (List ℕ)} {all waiting : List ℕ} {s : Placement}
    (h : Tracks parents all s waiting) :
    run all (childrenOf parents) s = placeAll parents s.placed waiting := by
  have wanted (s : Placement) (c : ℕ) : ((parents.getD c []).all s.placed.contains) = true ↔
      ∀ q ∈ parents.getD c [], q ∈ s.placed := by
    simp only [List.all_eq_true, List.contains_iff_mem]
  fun_induction run all (childrenOf parents) s generalizing waiting with
  | case1 s stuck =>
    have none : (waiting.find? fun c => (parents.getD c []).all s.placed.contains) = none := by
      refine List.find?_eq_none.mpr fun c waits now => ?_
      have ready := (h.ready c).mpr ⟨waits, (wanted s c).mp now⟩
      rw [List.min?_eq_none_iff.mp stuck] at ready
      cases ready
    unfold placeAll
    split
    case h_1 => rfl
    case h_2 found => cases none.symm.trans found
  | case2 s p first shorter ih =>
    obtain ⟨now, least⟩ := List.min?_eq_some_iff.mp first
    obtain ⟨waits, before⟩ := (h.ready p).mp now
    have found : (waiting.find? fun c => (parents.getD c []).all s.placed.contains) = some p :=
      find?_eq_some_of_least h.ascending waits ((wanted s p).mpr before) fun q hq early =>
        least q ((h.ready q).mpr ⟨hq, (wanted s q).mp early⟩)
    rw [ih (h.step now), placed_place]
    conv_rhs => unfold placeAll
    split
    case h_1 none => cases none.symm.trans found
    case h_2 q other =>
      obtain rfl : p = q := Option.some.inj (found.symm.trans other)
      rfl

end Placement

/-- Kahn's algorithm places what is placed without counters. -/
theorem placeReady_eq_placeAll {parents : List (List ℕ)} {waiting : List ℕ}
    (ascending : waiting.Pairwise (· < ·)) :
    placeReady parents waiting = placeAll parents [] waiting :=
  Placement.run_eq_placeAll (.start ascending)

end Influence.Diagram
