import Influence.Proofs.TailAssignments

/-!
# The value of the tail objective

The variables of the tail objective count a tail of the compatible paths of a strategy
(`Tallied.isTail`), so its value is the tail expectation of the strategy.  In the other direction
the quantile and the tail of a strategy give the variables their values (`tallied_extended`).
-/

namespace Influence

open Extended Program

open DecisionVariables (strategyOf)

namespace TailUtility

variable {d : Diagram Exact} {o : PathVariableOptions Exact} {isLazy : Bool}
  {z : DecisionVariables} {x : PathVariables Exact} {m : Program Exact} {σ : Strategy}
  {bigM epsilon alpha : ℚ}

/-! ## What the variables count -/

/-- The share of the scale that a path's mass counts with. -/
def counted (z : DecisionVariables) (x : PathVariables Exact) (values : Array Exact) (p : Path) :
    ℚ :=
  shareAt x (fun v => reading values (groupOf z x v + 3)) p / x.scale.rational

section Counted

variable {s : Solution Exact}

theorem counted_eq (enc : Encoding d o isLazy z x m) {values : Array Exact} {t : Path × ℕ}
    (ht : t ∈ x.vars) :
    reading values (groupOf z x t.2 + 3) = x.scale.rational * counted z x values t.1 := by
  rw [counted, enc.paths.shareAt_eq ht, mul_div_cancel₀ _ enc.paths.scale_eq.2.ne']

/-- What does not follow the strategy does not count. -/
theorem counted_eq_zero (enc : Encoding d o isLazy z x m) (hn : d.Normalized)
    (encoded : Strategy.Encoded d z x s σ) (tallied : Tallied d z x bigM epsilon alpha s.values)
    {p : Path} (off : ¬ σ.Follows d p) : counted z x s.values p = 0 := by
  by_cases member : p ∈ x.vars.map (·.1)
  · obtain ⟨t, ht, rfl⟩ := List.mem_map.mp member
    have group := tallied.groups t ht
    have bound := group.placed.rhoBar_le
    rw [(encoded.share_eq hn enc.paths ht).2, if_neg off, mul_zero] at bound
    rw [counted, enc.paths.shareAt_eq ht, le_antisymm bound group.rhoBar, zero_div]
  · rw [counted, shareAt_of_notMem member, zero_div]

/-- The variables of the tail objective count a tail of the compatible paths. -/
theorem Tallied.isTail (tallied : Tallied d z x bigM epsilon alpha s.values)
    (enc : Encoding d o isLazy z x m) (hn : d.Normalized) (encoded : Strategy.Encoded d z x s σ)
    (carried : σ.Carried d x) :
    IsTail (σ.followers d) d.weight (fun p => d.utility p + d.shift.rational)
      (reading s.values (z.vars.length + x.vars.length)) (counted z x s.values) := by
  have pos := enc.paths.scale_eq.2
  rw [encoded.covers.carried_iff hn enc.paths] at carried
  -- A follower has a variable, or no weight and no share.
  have cases {p : Path} (hp : p ∈ σ.followers d) :
      (∃ t ∈ x.vars, t.1 = p) ∨ d.weight p = 0 ∧ counted z x s.values p = 0 := by
    obtain ⟨inside, follows⟩ := Strategy.mem_followers.mp hp
    by_cases member : p ∈ x.vars.map (·.1)
    · exact .inl (List.mem_map.mp member)
    · refine .inr ⟨?_, by rw [counted, shareAt_of_notMem member, zero_div]⟩
      by_contra weight
      exact member (carried p inside follows weight)
  have mass {t : Path × ℕ} (ht : t ∈ x.vars) (hp : t.1 ∈ σ.followers d) :
      d.weight t.1 * x.scale.rational * reading s.values t.2 =
        x.scale.rational * d.weight t.1 := by
    rw [(encoded.share_eq hn enc.paths ht).2, if_pos (Strategy.mem_followers.mp hp).2, mul_one,
      mul_comm]
  refine ⟨fun p hp => ?_, fun p hp => ?_, fun p hp low => ?_, fun p hp high => ?_⟩
  · rcases cases hp with ⟨t, ht, rfl⟩ | ⟨-, zero⟩
    · have := (tallied.groups t ht).rhoBar
      rw [counted_eq enc ht] at this
      exact nonneg_of_mul_nonneg_right this pos
    · exact zero.ge
  · rcases cases hp with ⟨t, ht, rfl⟩ | ⟨weight, zero⟩
    · have := (tallied.groups t ht).placed.rhoBar_le
      rw [counted_eq enc ht, mass ht hp] at this
      exact le_of_mul_le_mul_left this pos
    · rw [zero, weight]
  · rcases cases hp with ⟨t, ht, rfl⟩ | ⟨weight, zero⟩
    · have group := tallied.groups t ht
      have := group.placed.rhoBar_of_below group.lambda low
      rw [counted_eq enc ht, mass ht hp] at this
      exact mul_left_cancel₀ pos.ne' this
    · rw [zero, weight]
  · rcases cases hp with ⟨t, ht, rfl⟩ | ⟨-, zero⟩
    · have group := tallied.groups t ht
      have := group.placed.rhoBar_of_above group.lambdaBar group.rhoBar high
      rw [counted_eq enc ht] at this
      exact (mul_eq_zero.mp this).resolve_left pos.ne'
    · exact zero

/-- A sum over what is counted is a sum over the followers. -/
theorem Tallied.sum_counted (tallied : Tallied d z x bigM epsilon alpha s.values)
    (enc : Encoding d o isLazy z x m) (hn : d.Normalized) (encoded : Strategy.Encoded d z x s σ)
    (c : Path → ℚ) :
    (x.vars.map fun t => c t.1 * reading s.values (groupOf z x t.2 + 3)).sum =
      x.scale.rational * ∑ p ∈ σ.followers d, counted z x s.values p * c p := by
  have pos := enc.paths.scale_eq.2
  rw [enc.paths.sum_vars hn c (a := fun v => reading s.values (groupOf z x v + 3)),
    Strategy.followers, Finset.sum_filter, Finset.mul_sum]
  refine Finset.sum_congr rfl fun p _ => ?_
  have share : shareAt x (fun v => reading s.values (groupOf z x v + 3)) p =
      x.scale.rational * counted z x s.values p := by
    rw [counted, mul_div_cancel₀ _ pos.ne']
  rw [share]
  split
  case isTrue => ring
  case isFalse off => rw [counted_eq_zero enc hn encoded tallied off, mul_zero, mul_zero]

theorem Tallied.sum_eq (tallied : Tallied d z x bigM epsilon alpha s.values)
    (enc : Encoding d o isLazy z x m) (hn : d.Normalized) (encoded : Strategy.Encoded d z x s σ) :
    ∑ p ∈ σ.followers d, counted z x s.values p = alpha := by
  have total := tallied.sum_counted enc hn encoded fun _ => 1
  simp only [one_mul, mul_one] at total
  rw [tallied.mass, mul_comm] at total
  exact (mul_left_cancel₀ enc.paths.scale_eq.2.ne' total).symm

end Counted

/-! ## The value -/

/-- Taking off the scale and the shift leaves the average over the tail. -/
private theorem unscaled {sum alpha scale shift : ℚ} (level : 0 < alpha) (pos : 0 < scale) :
    (finite (scale * (sum + shift * alpha)) / (finite alpha * finite scale) - finite shift : Exact) =
      finite (sum / alpha) := by
  rw [finite_mul, finite_div _ (mul_pos level pos).ne', finite_sub, Extended.finite.injEq]
  field_simp
  ring

/-- Where the variables count a tail, the value is the average over it. -/
theorem value_eq_of_tallied {s : Solution Exact} (level : 0 < alpha)
    (tallied : Tallied d z x bigM epsilon alpha s.values) (enc : Encoding d o isLazy z x m)
    (hn : d.Normalized) (encoded : Strategy.Encoded d z x s σ) {eta : Option ℕ} :
    (TailUtility.mk (LinearExpr.ofTerms (((tailVars (m.vars.size + 1)
          (x.vars.map (outcomeOf d)).length).zip (x.vars.map (outcomeOf d))).map
        fun (v, o) => (v, o.utility))) (finite alpha) d.shift x.scale eta).value s =
      finite ((∑ p ∈ σ.followers d, counted z x s.values p * d.utility p) / alpha) := by
  obtain ⟨scale, pos⟩ := enc.paths.scale_eq
  set terms := ((tailVars (m.vars.size + 1) (x.vars.map (outcomeOf d)).length).zip
    (x.vars.map (outcomeOf d))).map fun (v, o) => (v, o.utility) with hterms
  have listed : terms = x.vars.map fun t =>
      (groupOf z x t.2 + 3, finite (d.utility t.1 + d.shift.rational)) := by
    rw [hterms, List.length_map, enc.size_eq, tailVars_eq enc, List.zip_map', List.map_map]
    rfl
  clear_value terms
  subst listed
  set terms := x.vars.map fun t =>
    (groupOf z x t.2 + 3, (finite (d.utility t.1 + d.shift.rational) : Exact)) with hterms
  have isFinite : (LinearExpr.ofTerms terms).IsFinite := LinearExpr.isFinite_ofTerms fun t ht => by
    obtain ⟨u, -, rfl⟩ := List.mem_map.mp ht
    rfl
  have named : ∀ t ∈ (LinearExpr.ofTerms terms).terms,
      s.values.getD t.1 0 = finite (reading s.values t.1) := by
    intro t ht
    obtain ⟨u, hu, rfl⟩ := List.mem_map.mp ht
    exact (tallied.groups u hu).isFinite 3 (by omega)
  have sum : LinearExpr.termsAt terms (reading s.values) = x.scale.rational *
      (∑ p ∈ σ.followers d, counted z x s.values p * d.utility p + d.shift.rational * alpha) := by
    have total := tallied.sum_counted enc hn encoded fun p => d.utility p + d.shift.rational
    rw [LinearExpr.termsAt, hterms, List.map_map]
    refine total.trans (congrArg _ ?_)
    simp only [mul_add, Finset.sum_add_distrib, ← Finset.sum_mul,
      tallied.sum_eq enc hn encoded]
    ring
  rw [TailUtility.value, LinearExpr.evaluate_eq isFinite named, LinearExpr.valueAt_ofTerms, sum]
  conv_lhs => rw [scale, hn.shift_eq]
  exact unscaled level pos

/-! ## The tail of a strategy -/

/-- A strategy whose paths are carried has a tail at every level, and its quantile is the utility
of a path that has a variable. -/
theorem exists_isTail_followers (enc : Encoding d o isLazy z x m) (hn : d.Normalized)
    (covers : σ.Covers d) (carried : σ.Carried d x) (shift : ℚ) (level : 0 < alpha)
    (level_le : alpha ≤ 1) :
    ∃ t ∈ x.vars, ∃ q, IsTail (σ.followers d) d.weight (fun p => d.utility p + shift)
      (d.utility t.1 + shift) q ∧ ∑ p ∈ σ.followers d, q p = alpha := by
  rw [covers.carried_iff hn enc.paths] at carried
  set likely := (σ.followers d).filter (d.weight · ≠ 0) with hlikely
  have pos : ∀ p ∈ likely, 0 < d.weight p := by
    intro p hp
    obtain ⟨follower, weight⟩ := Finset.mem_filter.mp hp
    exact lt_of_le_of_ne (hn.weighed.weight_nonneg (Strategy.mem_followers.mp follower).1) weight.symm
  have total : ∑ p ∈ likely, d.weight p = 1 := by
    rw [hlikely, Finset.sum_filter_ne_zero, sum_weight_followers hn covers]
  obtain ⟨p, hp, q, tail, sum⟩ :=
    exists_isTail (u := fun p => d.utility p + shift) pos total level level_le
  obtain ⟨follower, weight⟩ := Finset.mem_filter.mp hp
  obtain ⟨inside, follows⟩ := Strategy.mem_followers.mp follower
  obtain ⟨t, ht, rfl⟩ := List.mem_map.mp (carried p inside follows weight)
  have member {r : Path} (hr : r ∈ σ.followers d) (weight : d.weight r ≠ 0) : r ∈ likely :=
    Finset.mem_filter.mpr ⟨hr, weight⟩
  refine ⟨t, ht, fun r => if d.weight r ≠ 0 then q r else 0,
    ⟨fun r hr => ?_, fun r hr => ?_, fun r hr low => ?_, fun r hr high => ?_⟩, ?_⟩
  · split_ifs with weight
    · exact tail.nonneg r (member hr weight)
    · exact le_rfl
  · split_ifs with weight
    · exact tail.le r (member hr weight)
    · exact (not_not.mp weight).ge
  · split_ifs with weight
    · exact tail.below r (member hr weight) low
    · exact (not_not.mp weight).symm
  · split_ifs with weight
    · exact tail.above r (member hr weight) high
    · rfl
  · rw [← Finset.sum_filter, sum]

/-- Where all utilities are the same the tail expectation is that utility. -/
theorem isTailExpectation_of_constant (enc : Encoding d o isLazy z x m) (hn : d.Normalized)
    (covers : σ.Covers d) (carried : σ.Carried d x) {c : ℚ} (level : 0 < alpha)
    (level_le : alpha ≤ 1) (constant : ∀ t ∈ x.vars, d.utility t.1 + d.shift.rational = c) :
    σ.IsTailExpectation d alpha (c - d.shift.rational) := by
  obtain ⟨t, -, q, tail, sum⟩ :=
    exists_isTail_followers enc hn covers carried d.shift.rational level level_le
  have expectation := covers.isTailExpectation hn level tail sum
  rw [covers.carried_iff hn enc.paths] at carried
  have same : ∑ p ∈ σ.followers d, q p * d.utility p = alpha * (c - d.shift.rational) := by
    rw [← sum, Finset.sum_mul]
    refine Finset.sum_congr rfl fun p hp => ?_
    obtain ⟨inside, follows⟩ := Strategy.mem_followers.mp hp
    by_cases weight : d.weight p = 0
    · have none : q p = 0 := le_antisymm (weight ▸ tail.le p hp) (tail.nonneg p hp)
      rw [none, zero_mul, zero_mul]
    · obtain ⟨t, ht, rfl⟩ := List.mem_map.mp (carried p inside follows weight)
      rw [← constant t ht, add_sub_cancel_right]
  rwa [same, mul_div_cancel_left₀ _ level.ne'] at expectation

private theorem value_constant {s : Solution Exact} {c scale shift : ℚ} (level : 0 < alpha)
    (pos : 0 < scale) :
    (TailUtility.mk (LinearExpr.const (finite c * finite alpha * finite scale)) (finite alpha)
      (finite shift) (finite scale) none).value s = finite (c - shift) := by
  have isFinite := LinearExpr.isFinite_const (c * alpha * scale)
  have evaluated : (LinearExpr.const (finite c * finite alpha * finite scale)).evaluate s.values =
      finite (c * alpha * scale) := by
    rw [finite_mul, finite_mul, LinearExpr.evaluate_eq isFinite (a := reading s.values) nofun,
      LinearExpr.valueAt_const]
  rw [TailUtility.value, evaluated, finite_mul, finite_div _ (mul_pos level pos).ne', finite_sub,
    mul_assoc, mul_div_cancel_right₀ _ (mul_pos level pos).ne']

/-- A level above zero and at most one is a number. -/
private theorem level_eq {alpha : Exact} (pos : 0 < alpha) (le : alpha ≤ 1) :
    alpha = finite alpha.rational ∧ 0 < alpha.rational ∧ alpha.rational ≤ 1 := by
  cases alpha with
  | notANumber => cases le
  | bottom => cases pos
  | finite a => exact ⟨rfl, pos, le⟩
  | top => cases le

/-! ## A tail objective that was built -/

/-- A tail objective that was built counts a level between zero and one.  Either all utilities are
the same and the program is as it was, or the program has the variables and constraints of the
outcomes, with different utilities at least twice `epsilon` apart. -/
theorem build_cases (enc : Encoding d o isLazy z x m) (hn : d.Normalized) {alpha : Exact}
    {t : TailUtility Exact} {m' : Program Exact} (run : Succeeds (build d x alpha) m t m') :
    alpha = finite alpha.rational ∧ 0 < alpha.rational ∧ alpha.rational ≤ 1 ∧
      ((∃ c : ℚ, m' = m ∧ (∀ t ∈ x.vars, d.utility t.1 + d.shift.rational = c) ∧
          t = ⟨LinearExpr.const (finite c * alpha * x.scale), alpha, d.shift, x.scale, none⟩) ∨
        ∃ low high epsilon : ℚ, x.vars ≠ [] ∧ 0 < epsilon ∧
          (∀ t ∈ x.vars, low ≤ d.utility t.1 + d.shift.rational ∧
            d.utility t.1 + d.shift.rational ≤ high) ∧
          (∀ t ∈ x.vars, ∀ u ∈ x.vars, d.utility t.1 < d.utility u.1 →
            epsilon ≤ d.utility u.1 - d.utility t.1) ∧
          t = ⟨LinearExpr.ofTerms (((tailVars (m.vars.size + 1)
              (x.vars.map (outcomeOf d)).length).zip (x.vars.map (outcomeOf d))).map
            fun (v, o) => (v, o.utility)), alpha, d.shift, x.scale, some m.vars.size⟩ ∧
          Grows m m' (tailVariables (x.vars.map (outcomeOf d)).length)
            (tailConstraints x (finite (high - low)) (finite epsilon) alpha m.vars.size
              (x.vars.map (outcomeOf d)))) := by
  obtain ⟨⟨pos, le⟩, os, s, listed, spread, made⟩ := succeeds_build_iff.mp run
  obtain ⟨level, level_pos, level_le⟩ := level_eq pos le
  refine ⟨level, level_pos, level_le, ?_⟩
  obtain rfl := outcomes_eq_ok enc.paths hn listed
  have utilities : (x.vars.map (outcomeOf d)).map (·.utility) =
      (x.vars.map fun t => d.utility t.1 + d.shift.rational).map finite := by
    rw [List.map_map, List.map_map]
    rfl
  rw [utilities] at spread
  obtain ⟨low, high, low_eq, high_eq, member, bounds, gap⟩ := spread?_eq_some spread
  rw [List.forall_mem_map] at bounds
  rcases succeeds_buildOver made with ⟨narrow, rfl, rfl⟩ | ⟨wide, rfl, grows⟩
  · rcases gap with ⟨-, same⟩ | ⟨g, found, -⟩
    · refine .inl ⟨low, rfl, List.forall_mem_map.mp same, ?_⟩
      rw [low_eq]
    · rw [found] at narrow
      cases narrow
  · rcases gap with ⟨infinite, -⟩ | ⟨g, found, g_pos, apart⟩
    · rw [infinite] at wide
      cases wide
    have half : (finite g / 2.0 : Exact) = finite (g / 2) := by
      have two : (2.0 : Exact) = finite 2 := by
        change finite (2.0 : ℚ) = _
        norm_num
      rw [two, finite_div g two_ne_zero]
    rw [low_eq, high_eq, found, finite_sub, half] at grows
    have nonempty : x.vars ≠ [] := by
      rintro none
      rw [none] at member
      cases member
    refine .inr ⟨low, high, g / 2, nonempty, half_pos g_pos, bounds, fun t ht u hu lt => ?_, rfl,
      grows⟩
    have := apart _ (List.mem_map_of_mem ht) _ (List.mem_map_of_mem hu)
      (add_lt_add_left lt _)
    linarith

/-! ## Values for a tail -/

/-- The values of an outcome's variables: below the quantile, at most the quantile, the mass if it
is below, and the amount that counts. -/
def placeOf (utility eta mass amount : ℚ) : ℕ → ℚ
  | 0 => if utility < eta then 1 else 0
  | 1 => if utility ≤ eta then 1 else 0
  | 2 => if utility < eta then mass else 0
  | _ => amount

/-- The values from the quantile on, for given amounts of the followers. -/
def tally (d : Diagram Exact) (x : PathVariables Exact) (σ : Strategy) (eta : ℚ) (q : Path → ℚ)
    (i : ℕ) : ℚ :=
  if i = 0 then eta
  else match x.vars[(i - 1) / 4]? with
    | none => 0
    | some t => placeOf (d.utility t.1 + d.shift.rational) eta
      (if σ.Follows d t.1 then d.weight t.1 * x.scale.rational else 0)
      (if σ.Follows d t.1 then x.scale.rational * q t.1 else 0) ((i - 1) % 4)

/-- An assignment of the decision and path variables with the values for a tail behind it. -/
def extended (d : Diagram Exact) (x : PathVariables Exact) (σ : Strategy) (eta : ℚ)
    (q : Path → ℚ) (values : Array Exact) : Array Exact :=
  values ++ valuesOf (1 + 4 * x.vars.length) (tally d x σ eta q)

section Extended

variable {values : Array Exact} {eta : ℚ} {q : Path → ℚ}

theorem getD_extended_lt {v : ℕ} (hv : v < values.size) :
    (extended d x σ eta q values).getD v 0 = values.getD v 0 := by
  rw [extended, Array.getD_eq_getD_getElem?, Array.getD_eq_getD_getElem?,
    Array.getElem?_append_left hv]

theorem getD_extended_ge {i : ℕ} (hi : i < 1 + 4 * x.vars.length) :
    (extended d x σ eta q values).getD (values.size + i) 0 = finite (tally d x σ eta q i) := by
  rw [extended, Array.getD_eq_getD_getElem?, Array.getElem?_append_right (Nat.le_add_right _ _),
    Nat.add_sub_cancel_left, ← Array.getD_eq_getD_getElem?, getD_valuesOf hi]

theorem tally_group (enc : Encoding d o isLazy z x m) {t : Path × ℕ} (ht : t ∈ x.vars) {k : ℕ}
    (hk : k < 4) (size : values.size = z.vars.length + x.vars.length) :
    (extended d x σ eta q values).getD (groupOf z x t.2 + k) 0 =
      finite (placeOf (d.utility t.1 + d.shift.rational) eta
        (if σ.Follows d t.1 then d.weight t.1 * x.scale.rational else 0)
        (if σ.Follows d t.1 then x.scale.rational * q t.1 else 0) k) := by
  obtain ⟨j, hj⟩ := List.getElem?_of_mem ht
  have inside := (List.getElem?_eq_some_iff.mp hj).1
  have position : groupOf z x t.2 + k = values.size + (1 + (4 * j + k)) := by
    rw [groupOf, var_of_getElem? enc hj, Nat.add_sub_cancel_left, size]
    omega
  have quotient : (1 + (4 * j + k) - 1) / 4 = j := by omega
  have remainder : (1 + (4 * j + k) - 1) % 4 = k := by omega
  rw [position, getD_extended_ge (by omega), tally, if_neg (by omega), quotient, remainder, hj]

theorem weight_le_one (hn : d.Normalized) (covers : σ.Covers d) {p : Path}
    (hp : p ∈ σ.followers d) : d.weight p ≤ 1 := by
  rw [← sum_weight_followers hn covers]
  exact Finset.single_le_sum (fun r hr => hn.weighed.weight_nonneg (Strategy.mem_followers.mp hr).1) hp

/-- The amounts of a tail are the shares of its paths. -/
private theorem sum_amounts (enc : Encoding d o isLazy z x m) (hn : d.Normalized)
    {s : Solution Exact} (encoded : Strategy.Encoded d z x s σ) (carried : σ.Carried d x)
    {u : Path → ℚ} (tail : IsTail (σ.followers d) d.weight u eta q) :
    (x.vars.map fun t => if σ.Follows d t.1 then x.scale.rational * q t.1 else 0).sum =
      x.scale.rational * ∑ p ∈ σ.followers d, q p := by
  have shares : (x.vars.map fun t => if σ.Follows d t.1 then x.scale.rational * q t.1 else 0) =
      x.vars.map fun t => d.weight t.1 * (q t.1 / d.weight t.1) * x.scale.rational *
        reading s.values t.2 := by
    refine List.map_congr_left fun t ht => ?_
    rw [(encoded.share_eq hn enc.paths ht).2, mul_div_cancel₀ _ (enc.paths.weight_pos hn ht).ne',
      mul_ite, mul_one, mul_zero, mul_comm]
  rw [shares, enc.paths.sum_scaled hn fun p => d.weight p * (q p / d.weight p),
    encoded.sum_shares carried hn enc.paths]
  refine congrArg _ (Finset.sum_congr rfl fun p hp => ?_)
  by_cases weight : d.weight p = 0
  · rw [weight, zero_mul]
    exact (le_antisymm (weight ▸ tail.le p hp) (tail.nonneg p hp)).symm
  · exact mul_div_cancel₀ _ weight

variable (epsilon) in
/-- The values for a tail are what the variables of the tail objective have to be. -/
theorem tallied_extended (enc : Encoding d o isLazy z x m) (hn : d.Normalized)
    {s : Solution Exact} (size : s.values.size = z.vars.length + x.vars.length)
    (encoded : Strategy.Encoded d z x s σ) (carried : σ.Carried d x) {low high : ℚ}
    (tail : IsTail (σ.followers d) d.weight (fun p => d.utility p + d.shift.rational) eta q)
    (sum : ∑ p ∈ σ.followers d, q p = alpha) (eta_mem : low ≤ eta ∧ eta ≤ high)
    (bounds : ∀ t ∈ x.vars, low ≤ d.utility t.1 + d.shift.rational ∧
      d.utility t.1 + d.shift.rational ≤ high)
    (apart : ∀ t ∈ x.vars, d.utility t.1 + d.shift.rational < eta →
      epsilon ≤ eta - (d.utility t.1 + d.shift.rational))
    (apart' : ∀ t ∈ x.vars, eta < d.utility t.1 + d.shift.rational →
      epsilon ≤ d.utility t.1 + d.shift.rational - eta) :
    Tallied d z x (high - low) epsilon alpha (extended d x σ eta q s.values) := by
  have pos := enc.paths.scale_eq.2
  have place {t : Path × ℕ} (ht : t ∈ x.vars) {k : ℕ} (hk : k < 4) :
      reading (extended d x σ eta q s.values) (groupOf z x t.2 + k) =
        placeOf (d.utility t.1 + d.shift.rational) eta
          (if σ.Follows d t.1 then d.weight t.1 * x.scale.rational else 0)
          (if σ.Follows d t.1 then x.scale.rational * q t.1 else 0) k := by
    rw [reading, tally_group enc ht hk size, rational_finite]
  have quantile : (extended d x σ eta q s.values).getD (z.vars.length + x.vars.length) 0 =
      finite eta := by
    rw [← size, ← Nat.add_zero s.values.size, getD_extended_ge (by omega), tally, if_pos rfl]
  refine ⟨fun t ht => ?_, ?_⟩
  · have share : d.weight t.1 * x.scale.rational * reading (extended d x σ eta q s.values) t.2 =
        if σ.Follows d t.1 then d.weight t.1 * x.scale.rational else 0 := by
      rw [reading, getD_extended_lt (size ▸ (enc.paths.var_mem ht).2), ← reading,
        (encoded.share_eq hn enc.paths ht).2, mul_ite, mul_one, mul_zero]
    have follower (follows : σ.Follows d t.1) : t.1 ∈ σ.followers d :=
      Strategy.mem_followers.mpr ⟨enc.paths.inRange ht, follows⟩
    have weight := enc.paths.weight_pos hn ht
    have mass_nonneg : 0 ≤ if σ.Follows d t.1 then d.weight t.1 * x.scale.rational else 0 := by
      split_ifs
      · exact (mul_pos weight pos).le
      · exact le_rfl
    have mass_le : (if σ.Follows d t.1 then d.weight t.1 * x.scale.rational else 0) ≤
        x.scale.rational := by
      split_ifs with follows
      · exact mul_le_of_le_one_left pos.le (weight_le_one hn encoded.covers (follower follows))
      · exact pos.le
    have amount_nonneg : 0 ≤ if σ.Follows d t.1 then x.scale.rational * q t.1 else 0 := by
      split_ifs with follows
      · exact mul_nonneg pos.le (tail.nonneg _ (follower follows))
      · exact le_rfl
    have level : reading (extended d x σ eta q s.values) (z.vars.length + x.vars.length) = eta := by
      rw [reading, quantile, rational_finite]
    set values := extended d x σ eta q s.values
    set utility := d.utility t.1 + d.shift.rational with hutility
    have lambda : reading values (groupOf z x t.2) = if utility < eta then 1 else 0 :=
      place ht (k := 0) (by omega)
    have lambdaBar : reading values (groupOf z x t.2 + 1) = if utility ≤ eta then 1 else 0 :=
      place ht (k := 1) (by omega)
    have rho : reading values (groupOf z x t.2 + 2) = if utility < eta then
        if σ.Follows d t.1 then d.weight t.1 * x.scale.rational else 0 else 0 :=
      place ht (k := 2) (by omega)
    have rhoBar : reading values (groupOf z x t.2 + 3) =
        if σ.Follows d t.1 then x.scale.rational * q t.1 else 0 := place ht (k := 3) (by omega)
    refine ⟨?_, fun i hi => ?_, ?_, ?_, ?_, ?_, ?_⟩
    · rw [level, quantile]
    · rw [place ht hi]
      exact tally_group enc ht hi size
    · rw [lambda]
      exact (ite_eq_or_eq _ _ _).symm
    · rw [lambdaBar]
      exact (ite_eq_or_eq _ _ _).symm
    · rw [rho]
      by_cases lower : utility < eta
      · rwa [if_pos lower]
      · rw [if_neg lower]
    · rwa [rhoBar]
    · rw [level, share, lambda, lambdaBar, rho, rhoBar]
      refine placed_of_tail (bounds t ht) eta_mem (apart t ht) (apart' t ht) mass_le amount_nonneg
        ?_ (fun lower => ?_) fun upper => ?_
      · split_ifs with follows
        · rw [mul_comm]
          exact mul_le_mul_of_nonneg_right (tail.le _ (follower follows)) pos.le
        · exact le_rfl
      · split_ifs with follows
        · rw [tail.below _ (follower follows) lower, mul_comm]
        · rfl
      · split_ifs with follows
        · rw [tail.above _ (follower follows) upper, mul_zero]
        · rfl
  · have counted : (x.vars.map fun t =>
        reading (extended d x σ eta q s.values) (groupOf z x t.2 + 3)) =
        x.vars.map fun t => if σ.Follows d t.1 then x.scale.rational * q t.1 else 0 :=
      List.map_congr_left fun t ht => place ht (by omega)
    rw [counted, sum_amounts enc hn encoded carried tail, sum, mul_comm]

end Extended

/-! ## Both directions -/

private theorem wide_ne_zero {low high : ℚ} (nonempty : x.vars ≠ []) (pos : 0 < epsilon)
    (bounds : ∀ t ∈ x.vars, low ≤ d.utility t.1 + d.shift.rational ∧
      d.utility t.1 + d.shift.rational ≤ high) : high - low + epsilon ≠ 0 := by
  obtain ⟨t, ht⟩ := List.exists_mem_of_ne_nil _ nonempty
  have := (bounds t ht).1.trans (bounds t ht).2
  linarith

/-- The value of a feasible assignment is the tail expectation of its strategy. -/
theorem isTailExpectation_of_isFeasible (enc : Encoding d o isLazy z x m) (hn : d.Normalized)
    (cut : o.probabilityCut = true ∨ isLazy = true) (free : ∀ e ∈ o.fixed.entries, e.1 ∉ d.chance)
    (small : z.vars.length < Word.count64) {alpha : Exact} {t : TailUtility Exact}
    {m' : Program Exact} (run : Succeeds (build d x alpha) m t m') {s : Solution Exact}
    (feasible : m'.isFeasible s.values 0 = true) :
    ∃ σ v, z.strategy s = .ok σ ∧ σ.Covers d ∧ t.value s = finite v ∧
      σ.IsTailExpectation d alpha.rational v := by
  obtain ⟨level, level_pos, level_le, made⟩ := build_cases enc hn run
  obtain ⟨scale, pos⟩ := enc.paths.scale_eq
  rcases made with ⟨c, rfl, constant, rfl⟩ |
    ⟨low, high, epsilon, nonempty, eps_pos, bounds, -, rfl, grows⟩
  · obtain ⟨encoded, carried⟩ := enc.encoded_of_isFeasible hn cut free small feasible
    refine ⟨_, _, encoded.strategy, encoded.covers, ?_, isTailExpectation_of_constant enc hn
      encoded.covers carried level_pos level_le constant⟩
    rw [level, scale, hn.shift_eq]
    exact value_constant level_pos pos
  · rw [level] at grows
    obtain ⟨-, assignment, satisfies, tallied⟩ := (isFeasible_iff enc hn cut small
      (wide_ne_zero nonempty eps_pos bounds) nonempty grows).mp feasible
    obtain ⟨encoded, carried⟩ := enc.encoded_of_satisfies hn free small assignment satisfies
    refine ⟨_, _, encoded.strategy, encoded.covers, ?_, encoded.covers.isTailExpectation hn
      level_pos (tallied.isTail enc hn encoded carried) (tallied.sum_eq enc hn encoded)⟩
    rw [level]
    exact value_eq_of_tallied level_pos tallied enc hn encoded

/-- What satisfies the constraints before those of the objective still does when it is extended. -/
private theorem satisfies_extended (enc : Encoding d o isLazy z x m) (hn : d.Normalized)
    (cut : o.probabilityCut = true ∨ isLazy = true) (small : z.vars.length < Word.count64)
    {values values' : Array Exact}
    (agree : ∀ v < z.vars.length + x.vars.length, values'.getD v 0 = values.getD v 0)
    (assignment : IsAssignment z x values) (satisfies : Satisfies d o z x 0 (reading values)) :
    IsAssignment z x values' ∧ Satisfies d o z x 0 (reading values') := by
  have read {v : ℕ} (hv : v < z.vars.length + x.vars.length) :
      reading values' v = reading values v := by rw [reading, agree v hv, ← reading]
  have kept : IsAssignment z x values' := by
    refine ⟨fun v hv => ?_, fun v hv => ?_, fun t ht => ?_⟩
    · rw [read hv, agree v hv]
      exact assignment.isFinite v hv
    · rw [read ((enc.mem_vars_lt hv).trans_le (Nat.le_add_right _ _))]
      exact assignment.bits v hv
    · rw [read (enc.paths.var_mem ht).2]
      exact assignment.shares t ht
  refine ⟨kept, (enc.isSatisfied_iff hn cut small kept.isFinite 0).mp ?_⟩
  refine (enc.isSatisfied_iff hn cut small (a := reading values) (fun v hv => ?_) 0).mpr satisfies
  rw [agree v hv]
  exact assignment.isFinite v hv

/-- A feasible assignment of the decision and path variables extends to the variables of the tail
objective. -/
theorem exists_extension (enc : Encoding d o isLazy z x m) (hn : d.Normalized)
    (cut : o.probabilityCut = true ∨ isLazy = true) (free : ∀ e ∈ o.fixed.entries, e.1 ∉ d.chance)
    (small : z.vars.length < Word.count64) {alpha : Exact} {t : TailUtility Exact}
    {m' : Program Exact} (run : Succeeds (build d x alpha) m t m') {values : Array Exact}
    (feasible : m.isFeasible values 0 = true) :
    ∃ more, m'.isFeasible (values ++ more) 0 = true := by
  obtain ⟨level, level_pos, level_le, made⟩ := build_cases enc hn run
  rcases made with ⟨c, rfl, -, -⟩ |
    ⟨low, high, epsilon, nonempty, eps_pos, bounds, apart, -, grows⟩
  · exact ⟨#[], by rwa [Array.append_empty]⟩
  rw [level] at grows
  obtain ⟨size, assignment, satisfies⟩ := (enc.isFeasible_iff hn cut small).mp feasible
  obtain ⟨encoded, carried⟩ :=
    enc.encoded_of_satisfies hn free small (s := ⟨values, 0⟩) assignment satisfies
  obtain ⟨u, hu, q, tail, sum⟩ := exists_isTail_followers enc hn encoded.covers carried
    d.shift.rational level_pos level_le
  have tallied := tallied_extended epsilon enc hn size encoded carried tail sum
    (bounds u hu) bounds (fun t ht lower => ?_) fun t ht upper => ?_
  rotate_left
  · have := apart t ht u hu (lt_of_add_lt_add_right lower)
    linarith
  · have := apart u hu t ht (lt_of_add_lt_add_right upper)
    linarith
  obtain ⟨assignment', satisfies'⟩ := satisfies_extended enc hn cut small
    (fun v hv => getD_extended_lt (size ▸ hv)) assignment satisfies
  refine ⟨valuesOf (1 + 4 * x.vars.length) (tally d x _ _ q), (isFeasible_iff enc hn cut small
    (wide_ne_zero nonempty eps_pos bounds) nonempty grows).mpr
      ⟨?_, assignment', satisfies', tallied⟩⟩
  rw [Array.size_append, size_valuesOf, size, ← Nat.add_assoc]

end TailUtility

/-! ## The tail of a bet -/

/-- The assignment of the decision and path variables that bets in the wager. -/
def wagerBet : Array Exact := #[0, 1, 0, 0, 1, 1]

/-- The bet with the variables of its worse half: the quantile, then four for every path. -/
def wagerTail : Array Exact := #[0, 1, 0, 0, 1, 1, -1, 0, 0, 0, 0, 0, 0, 0, 0, 0, 1, 0,
  finite (1 / 2), 0, 0, 0, 0]

private theorem spread_wager : TailUtility.spread? [finite 0, finite 0, finite (-1), finite 3] =
    some (⟨finite (-1), finite 3, finite 1⟩ : TailUtility.Spread Exact) := by
  have ascending : [(-1 : ℚ), 0, 3].Pairwise (· < ·) := by norm_num
  have members : ∀ v, v ∈ [(-1 : ℚ), 0, 3] ↔ v ∈ [(0 : ℚ), 0, -1, 3] := by
    intro v
    simp only [List.mem_cons, List.not_mem_nil, or_false]
    tauto
  have sorted := TailUtility.dedup_mergeSort_eq ascending members
  have gap : (TailUtility.gaps [finite (-1), finite 0, finite 3]).foldl Scalar.smaller
      Scalar.infinity = (finite 1 : Exact) := by decide +kernel
  unfold TailUtility.spread?
  rw [show [finite 0, finite 0, finite (-1), finite 3] = [(0 : ℚ), 0, -1, 3].map finite from rfl,
    sorted]
  exact congrArg (fun g => some (TailUtility.Spread.mk (finite (-1)) (finite 3) g)) gap

private theorem runs_wager :
    (succeedsWith (DecisionVariables.build (wager false) true : ProgramM Exact _) .empty
      fun z m₁ => succeedsWith ((wagerFile false .default).addPaths (wager false)
          ⟨true, [], .empty, true, 1, none⟩ z) m₁ fun x m₀ =>
        (m₀.vars.size == 6 && m₀.isFeasible wagerBet 0) &&
          (TailUtility.outcomes (wager false) x).toOption.any fun os =>
            decide (os.map (·.utility) = [finite 0, finite 0, finite (-1), finite 3]) &&
              succeedsWith (TailUtility.buildOver (wager false) x (finite (1 / 2)) os
                ⟨finite (-1), finite 3, finite 1⟩) m₀ fun t m =>
                  m.isFeasible wagerTail 0 && t.value ⟨wagerTail, 0⟩ == finite (-1)) = true := by
  decide +kernel

/-- Once the tail objective of a level has added its variables and constraints, its value is the
tail expectation of the strategy in every feasible assignment, and every assignment that was
feasible before extends to a feasible one.  Variables are numbered by machine words. -/
theorem tail_value_and_extension {f : DiagramFile Exact} {d : Diagram Exact}
    {o : PathVariableOptions Exact} {z : DecisionVariables} {x : PathVariables Exact}
    {alpha : Exact} {t : TailUtility Exact} {m₁ m₀ m : Program Exact}
    (decisions : Succeeds (DecisionVariables.build d o.names) .empty z m₁)
    (paths : Succeeds (f.addPaths d o z) m₁ x m₀)
    (run : Succeeds (TailUtility.build d x alpha) m₀ t m) (hn : d.Normalized)
    (cut : o.probabilityCut = true ∨ f.model.lazyProbabilityCut = true)
    (free : ∀ e ∈ o.fixed.entries, e.1 ∉ d.chance) (small : m₀.vars.size < Word.count64) :
    (∀ s : Solution Exact, m.isFeasible s.values 0 = true →
      ∃ σ v, z.strategy s = .ok σ ∧ σ.Covers d ∧ t.value s = finite v ∧
        σ.IsTailExpectation d alpha.rational v) ∧
      ∀ values : Array Exact, m₀.isFeasible values 0 = true →
        ∃ more, m.isFeasible (values ++ more) 0 = true := by
  have enc := DiagramFile.encoding_of_succeeds decisions paths
  have small : z.vars.length < Word.count64 := by
    rw [enc.size_eq] at small
    omega
  exact ⟨fun s => TailUtility.isTailExpectation_of_isFeasible enc hn cut free small run,
    fun values => TailUtility.exists_extension enc hn cut free small run⟩

/-- The worse half of the bet in the wager loses one. -/
theorem tail_value_and_extension_wager :
    ∃ z x t m₁ m₀ m, Succeeds (DecisionVariables.build (wager false) true) .empty z m₁ ∧
      Succeeds ((wagerFile false .default).addPaths (wager false)
        ⟨true, [], .empty, true, 1, none⟩ z) m₁ x m₀ ∧
      Succeeds (TailUtility.build (wager false) x (finite (1 / 2))) m₀ t m ∧
      m₀.isFeasible wagerBet 0 = true ∧ m.isFeasible wagerTail 0 = true ∧
      (∃ more, m.isFeasible (wagerBet ++ more) 0 = true) ∧
      ∃ σ : Strategy, σ.IsTailExpectation (wager false) (1 / 2) (-1) := by
  obtain ⟨z, m₁, decisions, checks⟩ := exists_succeeds runs_wager
  obtain ⟨x, m₀, paths, checks⟩ := exists_succeeds checks
  rw [Bool.and_eq_true, Bool.and_eq_true, beq_iff_eq] at checks
  obtain ⟨⟨size, bet⟩, checks⟩ := checks
  obtain ⟨os, listed, checks⟩ := exists_eq_ok_of_any _ checks
  rw [Bool.and_eq_true, decide_eq_true_eq] at checks
  obtain ⟨utilities, checks⟩ := checks
  obtain ⟨t, m, built, checks⟩ := exists_succeeds checks
  rw [Bool.and_eq_true] at checks
  obtain ⟨tail, value⟩ := checks
  have run : Succeeds (TailUtility.build (wager false) x (finite (1 / 2))) m₀ t m :=
    TailUtility.succeeds_build_iff.mpr
      ⟨by decide +kernel, os, _, listed, utilities ▸ spread_wager, built⟩
  obtain ⟨values, extension⟩ := tail_value_and_extension (f := wagerFile false .default)
    (d := wager false) (o := ⟨true, [], .empty, true, 1, none⟩) decisions paths run
    (normalized_wager false) (.inl rfl) (fun e he => (by cases he)) (by rw [size]; decide)
  obtain ⟨σ, v, -, -, found, expectation⟩ := values ⟨wagerTail, 0⟩ tail
  rw [found, finite_beq, decide_eq_true_eq] at value
  subst value
  exact ⟨z, x, t, m₁, m₀, m, decisions, paths, run, bet, tail, extension wagerBet bet, σ,
    expectation⟩

end Influence
