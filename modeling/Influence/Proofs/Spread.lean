import Mathlib.Data.List.Sort
import Influence.Encoding.Objective
import Influence.Proofs.Exact

/-!
# The spread of utilities

Of a list of numbers, `TailUtility.spread?` gives the extremes and the least gap
(`TailUtility.spread?_eq_some`): sorted and without repetitions the list ascends, so the least gap
between neighbours is the least gap between any two.
-/

namespace Influence.TailUtility

open Extended

/-- Without repetitions a sorted list ascends and has the same members. -/
private theorem dedup_go (last : ℚ) (us : List ℚ) (sorted : (last :: us).Pairwise (· ≤ ·)) :
    ∃ vs : List ℚ, dedup.go (finite last) (us.map finite) = vs.map finite ∧
      vs.Pairwise (· < ·) ∧ ∀ v, v ∈ vs ↔ v ∈ last :: us := by
  induction us generalizing last with
  | nil => exact ⟨[last], rfl, List.pairwise_singleton _ _, fun v => Iff.rfl⟩
  | cons u us ih =>
    obtain ⟨above, rest⟩ := List.pairwise_cons.mp sorted
    have unfolded : dedup.go (finite last) ((u :: us).map finite) =
        if u = last then dedup.go (finite last) (us.map finite)
        else finite last :: dedup.go (finite u) (us.map finite) := by
      rw [List.map_cons, dedup.go, finite_beq]
      simp only [decide_eq_true_eq]
    rw [unfolded]
    by_cases same : u = last
    · subst same
      obtain ⟨vs, eq, ascending, members⟩ := ih u rest
      rw [if_pos rfl]
      exact ⟨vs, eq, ascending, fun v => by simp [members]⟩
    · obtain ⟨vs, eq, ascending, members⟩ := ih u rest
      rw [if_neg same, eq]
      refine ⟨last :: vs, rfl, List.pairwise_cons.mpr ⟨fun v hv => ?_, ascending⟩, fun v => ?_⟩
      · have next : last < u := lt_of_le_of_ne (above u List.mem_cons_self) (Ne.symm same)
        rcases List.mem_cons.mp ((members v).mp hv) with rfl | later
        · exact next
        · exact next.trans_le ((List.pairwise_cons.mp rest).1 v later)
      · rw [List.mem_cons, members, List.mem_cons (l := u :: us)]

private theorem totalLe_finite (x y : ℚ) :
    Scalar.totalLe (finite x : Exact) (finite y) = decide (x ≤ y) := rfl

/-- The sorted list of what occurs. -/
theorem exists_sorted (us : List ℚ) :
    ∃ vs : List ℚ, dedup ((us.map finite).mergeSort Scalar.totalLe) = vs.map (finite : ℚ → Exact) ∧
      vs.Pairwise (· < ·) ∧ ∀ v, v ∈ vs ↔ v ∈ us := by
  have moved : (us.map (finite : ℚ → Exact)).mergeSort Scalar.totalLe =
      (us.mergeSort fun x y => decide (x ≤ y)).map finite :=
    (List.map_mergeSort fun x _ y _ => (totalLe_finite x y).symm).symm
  have sorted : (us.mergeSort fun x y => decide (x ≤ y)).Pairwise (· ≤ ·) := by
    refine List.Pairwise.imp of_decide_eq_true (List.pairwise_mergeSort (fun x y z hxy hyz => ?_)
      (fun x y => ?_) us)
    · exact decide_eq_true ((of_decide_eq_true hxy).trans (of_decide_eq_true hyz))
    · simpa using le_total x y
  have members (v : ℚ) : v ∈ us.mergeSort (fun x y => decide (x ≤ y)) ↔ v ∈ us :=
    (List.mergeSort_perm us _).mem_iff
  rw [moved]
  generalize us.mergeSort (fun x y => decide (x ≤ y)) = ws at sorted members
  cases ws with
  | nil => exact ⟨[], rfl, List.Pairwise.nil, members⟩
  | cons w ws =>
    obtain ⟨vs, eq, ascending, same⟩ := dedup_go w ws sorted
    exact ⟨vs, eq, ascending, fun v => (same v).trans (members v)⟩

/-- It is the only list that ascends and has these members. -/
theorem dedup_mergeSort_eq {us vs : List ℚ} (ascending : vs.Pairwise (· < ·))
    (members : ∀ v, v ∈ vs ↔ v ∈ us) :
    dedup ((us.map finite).mergeSort Scalar.totalLe) = vs.map (finite : ℚ → Exact) := by
  obtain ⟨ws, eq, ascending', members'⟩ := exists_sorted us
  rw [eq, ascending'.eq_of_mem_iff ascending fun w => (members' w).trans (members w).symm]

/-- The least gap of a list, as far as it is below a start: no two members are closer, and without
either it is infinite. -/
private def IsLeastGap (vs : List ℚ) (start found : Exact) : Prop :=
  (found = top ∧ start = top ∧ ∀ u ∈ vs, ∀ v ∈ vs, u = v) ∨
    ∃ g, found = finite g ∧ 0 < g ∧ (∀ a, start = finite a → g ≤ a) ∧
      ∀ u ∈ vs, ∀ v ∈ vs, u < v → g ≤ v - u

private theorem isLeastGap_start {vs : List ℚ} {start : Exact}
    (known : start = top ∨ ∃ a, start = finite a ∧ 0 < a) (same : ∀ u ∈ vs, ∀ v ∈ vs, u = v) :
    IsLeastGap vs start start := by
  rcases known with rfl | ⟨a, rfl, pos⟩
  · exact .inl ⟨rfl, rfl, same⟩
  · exact .inr ⟨a, rfl, pos, fun b hb => (Extended.finite.inj hb).le,
      fun u hu v hv lt => absurd (same u hu v hv) lt.ne⟩

/-- In an ascending list the least gap between neighbours is the least gap. -/
private theorem foldl_gaps {vs : List ℚ} (ascending : vs.Pairwise (· < ·)) (start : Exact)
    (known : start = top ∨ ∃ a, start = finite a ∧ 0 < a) :
    IsLeastGap vs start ((gaps (vs.map finite)).foldl Scalar.smaller start) := by
  induction vs generalizing start with
  | nil => exact isLeastGap_start known fun u hu => by cases hu
  | cons u vs ih =>
    cases vs with
    | nil =>
      refine isLeastGap_start known fun v hv w hw => ?_
      rw [List.mem_singleton.mp hv, List.mem_singleton.mp hw]
    | cons v vs =>
      obtain ⟨above, rest⟩ := List.pairwise_cons.mp ascending
      have gap : 0 < v - u := sub_pos.mpr (above v List.mem_cons_self)
      have next : ∃ a, Scalar.smaller start (finite v - finite u) = finite a ∧ 0 < a ∧
          a ≤ v - u ∧ ∀ b, start = finite b → a ≤ b := by
        rw [finite_sub]
        rcases known with rfl | ⟨a, rfl, pos⟩
        · exact ⟨v - u, rfl, gap, le_rfl, fun b hb => by cases hb⟩
        · refine ⟨min a (v - u), smaller_finite _ _, lt_min pos gap, min_le_right _ _,
            fun b hb => ?_⟩
          rw [← Extended.finite.inj hb]
          exact min_le_left _ _
      obtain ⟨a, step, pos, close, start_le⟩ := next
      have folded : (gaps ((u :: v :: vs).map finite)).foldl Scalar.smaller start =
          (gaps ((v :: vs).map finite)).foldl Scalar.smaller (finite a) := by
        rw [← step]
        rfl
      rw [folded]
      rcases ih rest (finite a) (.inr ⟨a, rfl, pos⟩) with ⟨-, infinite, -⟩ | ⟨g, found, g_pos, g_le, apart⟩
      · cases infinite
      have low : g ≤ v - u := (g_le a rfl).trans close
      refine .inr ⟨g, found, g_pos, fun b hb => (g_le a rfl).trans (start_le b hb), ?_⟩
      intro w hw y hy lt
      rcases List.mem_cons.mp hw with rfl | hw'
      · rcases List.mem_cons.mp hy with rfl | hy'
        · exact absurd lt (lt_irrefl _)
        · have : v ≤ y := by
            rcases List.mem_cons.mp hy' with rfl | later
            · exact le_rfl
            · exact ((List.pairwise_cons.mp rest).1 y later).le
          linarith
      · rcases List.mem_cons.mp hy with rfl | hy'
        · exact absurd lt (not_lt.mpr (above w hw').le)
        · exact apart w hw' y hy' lt

/-- What the spread of a list of numbers is: its extremes, and a gap that no two different
members undercut, infinite only where all are equal. -/
theorem spread?_eq_some {us : List ℚ} {s : Spread Exact} (h : spread? (us.map finite) = some s) :
    ∃ low high : ℚ, s.low = finite low ∧ s.high = finite high ∧ low ∈ us ∧
      (∀ u ∈ us, low ≤ u ∧ u ≤ high) ∧
      ((s.gap = top ∧ ∀ u ∈ us, u = low) ∨
        ∃ gap, s.gap = finite gap ∧ 0 < gap ∧ ∀ u ∈ us, ∀ v ∈ us, u < v → gap ≤ v - u) := by
  obtain ⟨vs, eq, ascending, members⟩ := exists_sorted us
  have gaps_spec := foldl_gaps ascending top (.inl rfl)
  unfold spread? at h
  dsimp only at h
  rw [eq] at h
  cases vs with
  | nil => cases h
  | cons low vs =>
    obtain ⟨front, high, split⟩ : ∃ front high, low :: vs = front ++ [high] :=
      ⟨(low :: vs).dropLast, (low :: vs).getLast (List.cons_ne_nil _ _),
        (List.dropLast_append_getLast _).symm⟩
    have head : ((low :: vs).map (finite : ℚ → Exact)).head? = some (finite low) := rfl
    have last : ((low :: vs).map (finite : ℚ → Exact)).getLast? = some (finite high) := by
      rw [split, List.map_append, List.map_singleton, List.getLast?_concat]
    rw [head, last] at h
    obtain rfl := Option.some.inj h
    refine ⟨low, high, rfl, rfl, (members low).mp List.mem_cons_self, fun u hu => ⟨?_, ?_⟩, ?_⟩
    · rcases List.mem_cons.mp ((members u).mpr hu) with rfl | later
      · exact le_rfl
      · exact ((List.pairwise_cons.mp ascending).1 u later).le
    · have member := (members u).mpr hu
      rw [split] at ascending member
      rcases List.mem_append.mp member with before | final
      · exact ((List.pairwise_append.mp ascending).2.2 u before high
          (List.mem_singleton_self high)).le
      · exact (List.mem_singleton.mp final).le
    · rcases gaps_spec with ⟨infinite, -, same⟩ | ⟨gap, found, pos, -, apart⟩
      · exact .inl ⟨infinite, fun u hu => same u ((members u).mpr hu) low List.mem_cons_self⟩
      · exact .inr ⟨gap, found, pos, fun u hu v hv => apart u ((members u).mpr hu) v
          ((members v).mpr hv)⟩

end Influence.TailUtility
