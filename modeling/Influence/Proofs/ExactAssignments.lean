import Mathlib.Algebra.Order.BigOperators.Group.Finset
import Influence.Proofs.PathEncoding

/-!
# Exact assignments

An assignment that satisfies a compiled program exactly gives one to the variables of the paths
that follow its strategy and zero to all others, and no path of positive probability that
follows is without a variable (`Satisfies.shareAt_eq`): the strategy's paths carry mass one in
total, and the cut asks for all of it.

In the other direction, the bits of a strategy with these path variables satisfy the program
(`satisfies_of_follows`).
-/

namespace Influence

open Extended Program

/-! ## Assignments by path -/

section Shares

variable {d : Diagram Exact} {o : PathVariableOptions Exact} {z : DecisionVariables}
  {x : PathVariables Exact} {start : ℕ} {a : ℕ → ℚ}

/-- The value of a path's variable, zero where it has none. -/
def shareAt (x : PathVariables Exact) (a : ℕ → ℚ) (p : Path) : ℚ := ((x.get? p).map a).getD 0

theorem PathVariables.LaidOut.get?_eq (h : PathVariables.LaidOut d z o x start)
    {t : Path × ℕ} (ht : t ∈ x.vars) : x.get? t.1 = some t.2 := by
  have distinct := h.nodup_paths
  unfold PathVariables.get?
  generalize x.vars = ts at ht distinct
  induction ts with
  | nil => cases ht
  | cons u ts ih =>
    rw [List.map_cons, List.nodup_cons] at distinct
    rcases List.mem_cons.mp ht with rfl | later
    · exact List.lookup_cons_self
    · have differ : (t.1 == u.1) = false := by
        rw [beq_eq_false_iff_ne]
        exact fun same => distinct.1 (same ▸ List.mem_map_of_mem later)
      obtain ⟨p, v⟩ := u
      rw [List.lookup_cons, differ]
      exact ih later distinct.2

theorem PathVariables.LaidOut.shareAt_eq (h : PathVariables.LaidOut d z o x start)
    {t : Path × ℕ} (ht : t ∈ x.vars) : shareAt x a t.1 = a t.2 := by
  rw [shareAt, h.get?_eq ht]
  rfl

theorem get?_of_notMem {p : Path} (hp : p ∉ x.vars.map (·.1)) : x.get? p = none := by
  rw [PathVariables.get?, List.lookup_eq_none_iff]
  intro t ht
  rw [bne_iff_ne]
  exact fun same => hp (same ▸ List.mem_map_of_mem ht)

/-- The paths with variables are those for which one is found. -/
theorem PathVariables.LaidOut.isSome_get?_iff (h : PathVariables.LaidOut d z o x start) {p : Path} :
    (x.get? p).isSome = true ↔ p ∈ x.vars.map (·.1) := by
  constructor
  · intro found
    by_contra missing
    rw [get?_of_notMem missing] at found
    cases found
  · intro member
    obtain ⟨t, ht, rfl⟩ := List.mem_map.mp member
    rw [h.get?_eq ht]
    rfl

theorem shareAt_of_notMem {p : Path} (hp : p ∉ x.vars.map (·.1)) : shareAt x a p = 0 := by
  rw [shareAt, get?_of_notMem hp]
  rfl

/-- A sum over the path variables is a sum over the paths. -/
theorem PathVariables.LaidOut.sum_vars (h : PathVariables.LaidOut d z o x start)
    (hn : d.Weighed) (f : Path → ℚ) :
    (x.vars.map fun t => f t.1 * a t.2).sum = ∑ p ∈ d.paths, f p * shareAt x a p := by
  have byPath : x.vars.map (fun t => f t.1 * a t.2) =
      (x.vars.map (·.1)).map fun p => f p * shareAt x a p := by
    rw [List.map_map]
    refine List.map_congr_left fun t ht => ?_
    rw [Function.comp_apply, h.shareAt_eq ht]
  rw [byPath, ← List.sum_toFinset _ h.nodup_paths]
  refine Finset.sum_subset (fun p hp => ?_) fun p _ hp => ?_
  · exact Diagram.mem_paths.mpr ((h.mem_paths_iff hn).mp (List.mem_toFinset.mp hp)).1
  · rw [shareAt_of_notMem fun mem => hp (List.mem_toFinset.mpr mem), mul_zero]

/-- The scaled mass of the path variables. -/
theorem PathVariables.LaidOut.sum_scaled (h : PathVariables.LaidOut d z o x start)
    (hn : d.Weighed) (f : Path → ℚ) :
    (x.vars.map fun t => f t.1 * x.scale.rational * a t.2).sum =
      x.scale.rational * ∑ p ∈ d.paths, f p * shareAt x a p := by
  rw [h.sum_vars hn fun p => f p * x.scale.rational, Finset.mul_sum]
  exact Finset.sum_congr rfl fun p _ => by ring

/-- The assignment with given bits of the decision variables and given shares of the paths. -/
def combine (z : DecisionVariables) (x : PathVariables Exact) (bits : ℕ → ℚ) (share : Path → ℚ)
    (v : ℕ) : ℚ :=
  if v < z.vars.length then bits v
  else match x.vars[v - z.vars.length]? with
    | some t => share t.1
    | none => 0

variable {isLazy : Bool} {m : Program Exact} {bits : ℕ → ℚ} {share : Path → ℚ}

theorem Encoding.combine_bit (enc : Encoding d o isLazy z x m) {v : ℕ} (hv : v ∈ z.vars) :
    combine z x bits share v = bits v := if_pos (enc.mem_vars_lt hv)

theorem Encoding.combine_share (enc : Encoding d o isLazy z x m) {t : Path × ℕ} (ht : t ∈ x.vars) :
    combine z x bits share t.2 = share t.1 := by
  obtain ⟨k, hk, rfl⟩ := List.mem_iff_getElem.mp ht
  have number : (x.vars[k]).2 = z.vars.length + k := by
    have listed : (x.vars.map (·.2))[k]? = some (x.vars[k]).2 := by
      rw [List.getElem?_map, List.getElem?_eq_getElem hk, Option.map_some]
    rw [enc.paths.vars, List.getElem?_range' hk, Option.some.injEq] at listed
    omega
  rw [combine, if_neg (by omega), number, Nat.add_sub_cancel_left, List.getElem?_eq_getElem hk]

end Shares

/-! ## Exact assignments -/

/-- Shares of a weight that is one in total, on a part that alone has positive shares: if the
shares weigh one, they are one wherever there is weight. -/
theorem share_eq_one (part : Finset Path) {paths : Finset Path} {w y : Path → ℚ} (subset : part ⊆ paths)
    (total : ∑ p ∈ part, w p = 1) (nonneg : ∀ p ∈ paths, 0 ≤ w p) (le_one : ∀ p, y p ≤ 1)
    (outside : ∀ p ∈ paths, p ∉ part → y p = 0) (mass : ∑ p ∈ paths, w p * y p = 1) {p : Path}
    (hp : p ∈ part) (weight : w p ≠ 0) : y p = 1 := by
  have inside : ∑ p ∈ part, w p * y p = 1 := by
    rw [← mass]
    exact Finset.sum_subset subset fun q hq out => by rw [outside q hq out, mul_zero]
  have rest : ∑ p ∈ part, w p * (1 - y p) = 0 := by
    simp only [mul_sub, mul_one, Finset.sum_sub_distrib, total, inside, sub_self]
  have terms : ∀ q ∈ part, 0 ≤ w q * (1 - y q) := fun q hq =>
    mul_nonneg (nonneg q (subset hq)) (sub_nonneg.mpr (le_one q))
  have zero := (Finset.sum_eq_zero_iff_of_nonneg terms).mp rest p hp
  have := (mul_eq_zero.mp zero).resolve_left weight
  linarith

/-- A bit that is off keeps a sum of bits below their number. -/
theorem sum_bits_le {vs : List ℕ} {a : ℕ → ℚ} (bits : ∀ v ∈ vs, a v = 0 ∨ a v = 1) {v : ℕ}
    (hv : v ∈ vs) (zero : a v = 0) : (vs.map a).sum ≤ vs.length - 1 := by
  have bounded (ws : List ℕ) (h : ∀ w ∈ ws, a w = 0 ∨ a w = 1) :
      (ws.map a).sum ≤ ws.length := by
    induction ws with
    | nil => simp
    | cons w ws ih =>
      obtain ⟨first, rest⟩ := List.forall_mem_cons.mp h
      rw [List.map_cons, List.sum_cons, List.length_cons, Nat.cast_succ]
      rcases first with first | first <;> rw [first] <;> linarith [ih rest]
  obtain ⟨front, back, rfl⟩ := List.append_of_mem hv
  have low := bounded front fun w hw => bits w (List.mem_append_left _ hw)
  have high := bounded back fun w hw =>
    bits w (List.mem_append_right _ (List.mem_cons_of_mem _ hw))
  rw [List.map_append, List.map_cons, List.sum_append, List.sum_cons, zero, List.length_append,
    List.length_cons]
  push_cast
  linarith

section Exact

variable {d : Diagram Exact} {o : PathVariableOptions Exact} {isLazy : Bool}
  {z : DecisionVariables} {x : PathVariables Exact} {m : Program Exact} {a : ℕ → ℚ}

open DecisionVariables (strategyOf IsChoice)

theorem IsLinked.isChoice (h : IsLinked d o z x 0 a) (bits : ∀ v ∈ z.vars, a v = 0 ∨ a v = 1) :
    IsChoice z a :=
  ⟨bits, fun g hg => by
    have := abs_eq_zero.mp (le_antisymm (h.oneHot g hg) (abs_nonneg _))
    linarith⟩

theorem Satisfies.isChoice (h : Satisfies d o z x 0 a) (bits : ∀ v ∈ z.vars, a v = 0 ∨ a v = 1) :
    IsChoice z a := h.isLinked.isChoice bits

/-- Where the linking lower bound is added, path variables are one on the paths that follow the
strategy of an assignment and zero on the others, with or without a cut. -/
theorem IsLinked.share_eq (h : IsLinked d o z x 0 a) (enc : Encoding d o isLazy z x m)
    (arranged : d.Arranged) (small : z.vars.length < Word.count64)
    (bits : ∀ v ∈ z.vars, a v = 0 ∨ a v = 1)
    (bound : (PathVariables.bindsBelow d o && !d.decision.isEmpty) = true) {t : Path × ℕ}
    (ht : t ∈ x.vars) (shares : 0 ≤ a t.2 ∧ a t.2 ≤ 1) :
    a t.2 = if (strategyOf z a).Follows d t.1 then 1 else 0 := by
  have hp := enc.paths.inRange ht
  have follows :=
    (h.isChoice bits).follows_strategyOf_iff enc.decisions arranged small hp
  have count : d.decision.length = (PathVariables.selectedAt z t.1 d.decision).length := by
    simpa using congrArg List.length (enc.paths.selects t ht)
  split
  case isTrue on =>
    have low := h.bound bound t ht
    have ones : ((PathVariables.selectedAt z t.1 d.decision).map a).sum = d.decision.length := by
      rw [List.map_congr_left (g := fun _ => (1 : ℚ)) (follows.mp on), count]
      simp
    rw [ones] at low
    linarith [shares.2]
  case isFalse off =>
    rw [follows] at off
    simp only [not_forall, exists_prop] at off
    obtain ⟨v, hv, off⟩ := off
    have zero := (bits v (enc.selectedAt_subset arranged small hp v hv)).resolve_right off
    linarith [h.linked t ht v hv, shares.1]

/-- An assignment that satisfies a program exactly covers all paths of positive probability that
follow its strategy: their variables are one, all others zero. -/
theorem Satisfies.shareAt_eq (h : Satisfies d o z x 0 a) (enc : Encoding d o isLazy z x m)
    (hn : d.Normalized) (free : ∀ e ∈ o.fixed.entries, e.1 ∉ d.chance)
    (small : z.vars.length < Word.count64) (bits : ∀ v ∈ z.vars, a v = 0 ∨ a v = 1)
    (shares : ∀ t ∈ x.vars, 0 ≤ a t.2 ∧ a t.2 ≤ 1) {p : Path} (hp : inRange d.states p = true) :
    ((strategyOf z a).Follows d p → d.weight p ≠ 0 → shareAt x a p = 1) ∧
      (¬ (strategyOf z a).Follows d p → shareAt x a p = 0) := by
  have choice := h.isChoice bits
  have covers := choice.covers_strategyOf enc.decisions hn.arranged hn.assembled small
  have outside (q : Path) (out : ¬ (strategyOf z a).Follows d q) : shareAt x a q = 0 := by
    by_cases mem : q ∈ x.vars.map (·.1)
    swap
    · exact shareAt_of_notMem mem
    obtain ⟨t, ht, rfl⟩ := List.mem_map.mp mem
    have hq := enc.paths.inRange ht
    rw [choice.follows_strategyOf_iff enc.decisions hn.arranged small hq] at out
    simp only [not_forall, exists_prop] at out
    obtain ⟨v, hv, off⟩ := out
    have zero := (bits v (enc.selectedAt_subset hn small hq v hv)).resolve_right off
    have link := h.linked t ht v hv
    rw [enc.paths.shareAt_eq ht]
    exact le_antisymm (by linarith) (shares t ht).1
  refine ⟨fun follows weight => ?_, outside p⟩
  have mass : ∑ p ∈ d.paths, d.weight p * shareAt x a p = 1 := by
    have cut := h.cut
    rw [enc.cutSense_eq hn free] at cut
    have equal := abs_eq_zero.mp (le_antisymm cut (abs_nonneg _))
    have pos := enc.paths.scale_eq.2
    rw [enc.paths.sum_scaled hn] at equal
    have : x.scale.rational * (∑ p ∈ d.paths, d.weight p * shareAt x a p - 1) = 0 := by linarith
    rcases mul_eq_zero.mp this with zero | one
    · exact absurd zero pos.ne'
    · linarith
  refine share_eq_one ((strategyOf z a).followers d) (Finset.filter_subset _ _)
    (sum_weight_followers hn covers) (fun q hq => hn.weighed.weight_nonneg (Diagram.mem_paths.mp hq))
    (fun q => ?_) (fun q hq out => outside q fun follows =>
      out (Strategy.mem_followers.mpr ⟨Diagram.mem_paths.mp hq, follows⟩)) mass
    (Strategy.mem_followers.mpr ⟨hp, follows⟩) weight
  by_cases mem : q ∈ x.vars.map (·.1)
  · obtain ⟨t, ht, rfl⟩ := List.mem_map.mp mem
    rw [enc.paths.shareAt_eq ht]
    exact (shares t ht).2
  · rw [shareAt_of_notMem mem]
    exact zero_le_one

/-- One for the paths that follow the strategy of an assignment and zero for the others satisfies
the constraints other than the cut. -/
theorem isLinked_of_follows (enc : Encoding d o isLazy z x m) (arranged : d.Arranged)
    (small : z.vars.length < Word.count64) (choice : IsChoice z a)
    (shares : ∀ t ∈ x.vars, a t.2 = if (strategyOf z a).Follows d t.1 then 1 else 0) :
    IsLinked d o z x 0 a := by
  have selected {t : Path × ℕ} (ht : t ∈ x.vars) :
      ∀ v ∈ PathVariables.selectedAt z t.1 d.decision, a v = 0 ∨ a v = 1 := fun v hv =>
    choice.bits v (enc.selectedAt_subset arranged small (enc.paths.inRange ht) v hv)
  have follows {t : Path × ℕ} (ht : t ∈ x.vars) := choice.follows_strategyOf_iff enc.decisions
    arranged small (enc.paths.inRange ht)
  refine ⟨fun g hg => ?_, fun t ht v hv => ?_, fun _ t ht => ?_⟩
  · rw [choice.one g hg, sub_self, abs_zero]
  · rw [shares t ht]
    split
    case isTrue h => rw [(follows ht).mp h v hv, sub_self]
    case isFalse => rcases selected ht v hv with h | h <;> rw [h] <;> norm_num
  · have count : d.decision.length = (PathVariables.selectedAt z t.1 d.decision).length := by
      simpa using congrArg List.length (enc.paths.selects t ht)
    rw [shares t ht, count, neg_zero]
    split
    case isTrue h =>
      rw [List.map_congr_left (g := fun _ => (1 : ℚ)) ((follows ht).mp h)]
      simp
    case isFalse h =>
      rw [follows ht] at h
      simp only [not_forall, exists_prop] at h
      obtain ⟨v, hv, off⟩ := h
      have := sum_bits_le (selected ht) hv ((selected ht v hv).resolve_right off)
      linarith

/-- If the cut holds as well, this satisfies a program. -/
theorem satisfies_of_cut (enc : Encoding d o isLazy z x m) (arranged : d.Arranged)
    (small : z.vars.length < Word.count64) (choice : IsChoice z a)
    (shares : ∀ t ∈ x.vars, a t.2 = if (strategyOf z a).Follows d t.1 then 1 else 0)
    (cut : x.cutSense.Passes 0
      ((x.vars.map fun t => d.weight t.1 * x.scale.rational * a t.2).sum - x.scale.rational)) :
    Satisfies d o z x 0 a :=
  let linked := isLinked_of_follows enc arranged small choice shares
  ⟨linked.oneHot, linked.linked, linked.bound, cut⟩

/-- The mass of the paths with variables that follow the strategy of an assignment. -/
theorem mass_of_follows (enc : Encoding d o isLazy z x m)
    (shares : ∀ t ∈ x.vars, a t.2 = if (strategyOf z a).Follows d t.1 then 1 else 0) :
    ∑ p ∈ d.paths, d.weight p * shareAt x a p =
      ∑ p ∈ ((strategyOf z a).followers d).filter (· ∈ x.vars.map (·.1)), d.weight p := by
  rw [Strategy.followers, Finset.filter_filter, Finset.sum_filter]
  refine Finset.sum_congr rfl fun p hp => ?_
  by_cases mem : p ∈ x.vars.map (·.1)
  · obtain ⟨t, ht, rfl⟩ := List.mem_map.mp mem
    simp only [enc.paths.shareAt_eq ht, shares t ht, mem, and_true, mul_ite, mul_one, mul_zero]
  · rw [shareAt_of_notMem mem, mul_zero, if_neg fun both => mem both.2]

/-- One for the paths that follow the strategy of an assignment and zero for the others
satisfies a program, if every path of positive probability that follows has a variable. -/
theorem satisfies_of_follows (enc : Encoding d o isLazy z x m) (hn : d.Normalized)
    (free : ∀ e ∈ o.fixed.entries, e.1 ∉ d.chance) (small : z.vars.length < Word.count64)
    (choice : IsChoice z a)
    (shares : ∀ t ∈ x.vars, a t.2 = if (strategyOf z a).Follows d t.1 then 1 else 0)
    (complete : ∀ p, inRange d.states p = true → (strategyOf z a).Follows d p →
      d.weight p ≠ 0 → p ∈ x.vars.map (·.1)) : Satisfies d o z x 0 a := by
  have covers := choice.covers_strategyOf enc.decisions hn.arranged hn.assembled small
  have total : ∑ p ∈ d.paths, d.weight p * shareAt x a p = 1 := by
    rw [mass_of_follows enc shares, ← sum_weight_followers hn covers]
    refine Finset.sum_subset (Finset.filter_subset _ _) fun p hp out => ?_
    obtain ⟨inside, follows⟩ := Strategy.mem_followers.mp hp
    by_contra weight
    exact out (Finset.mem_filter.mpr ⟨hp, complete p inside follows weight⟩)
  refine satisfies_of_cut enc hn small choice shares ?_
  rw [enc.cutSense_eq hn free, enc.paths.sum_scaled hn, total, mul_one, sub_self]
  exact abs_zero.le

end Exact

end Influence
