import Mathlib.Algebra.Order.Field.Basic
import Mathlib.Tactic.FieldSimp
import Influence.Program.Enumeration
import Influence.Proofs.Feasible
import Influence.Proofs.Success

/-!
# The steps of the search

One-hot groups are taken in the order of their constraints as long as they share no member
(`foldl_withGroup_some`), and a candidate is a list of values to set (`assign_eq_foldl`).

A constraint with one continuous variable confines it to the values at which the constraint
holds (`interval_confine`), and of the interval that is left the preference picks an end
(`settle_eq_ok`).  Settling all variables one after the other gives each the value that it would
get alone, as long as what confines a variable is not touched by the others
(`settleAll_eq_ok`).

The search keeps a candidate that no other one beats (`best_spec`), and it is one of those that
were tried (`exists_attempt_of_best?`).
-/

namespace Influence

open Extended

/-- The sign that scores have in a direction. -/
def Direction.sign : Direction → ℚ
  | .maximize => 1
  | .minimize => -1

namespace Search

variable {α : Type} [Scalar α]

/-! ## Confining -/

/-- The interval has finite ends and consists of the numbers with the property. -/
def Interval (bounds : Exact × Exact) (P : ℚ → Prop) : Prop :=
  ∃ low high : ℚ, bounds = (finite low, finite high) ∧ ∀ r, low ≤ r ∧ r ≤ high ↔ P r

theorem Interval.congr {bounds : Exact × Exact} {P Q : ℚ → Prop} (h : Interval bounds P)
    (iff : ∀ r, P r ↔ Q r) : Interval bounds Q := by
  obtain ⟨low, high, ends, member⟩ := h
  exact ⟨low, high, ends, fun r => (member r).trans (iff r)⟩

private theorem holds_of_pos {sense : Sense} {k : ℚ} (pos : 0 < k) :
    (holdsUp sense (finite k : Exact) = true ↔ sense ≠ .le) ∧
      (holdsDown sense (finite k : Exact) = true ↔ sense ≠ .ge) := by
  have below : (0 : Exact) < finite k := pos
  have above : ¬ (finite k : Exact) < 0 := not_lt.mpr (le_of_lt pos)
  cases sense <;> simp [holdsUp, holdsDown, below, above]

private theorem holds_of_neg {sense : Sense} {k : ℚ} (neg : k < 0) :
    (holdsUp sense (finite k : Exact) = true ↔ sense ≠ .ge) ∧
      (holdsDown sense (finite k : Exact) = true ↔ sense ≠ .le) := by
  have below : ¬ (0 : Exact) < finite k := not_lt.mpr (le_of_lt neg)
  have above : (finite k : Exact) < 0 := neg
  cases sense <;> simp [holdsUp, holdsDown, below, above]

/-- A comparison confines a number that occurs in it to one side of a limit, or to the limit. -/
theorem compares_iff {K : Type} [Field K] [LinearOrder K] [IsStrictOrderedRing K] (sense : Sense)
    {k : ℚ} (hk : k ≠ 0) (rest rhs r : K) :
    sense.Compares ((k : K) * r + rest) rhs ↔
      (holdsUp sense (finite k : Exact) = true → (rhs - rest) / k ≤ r) ∧
        (holdsDown sense (finite k : Exact) = true → r ≤ (rhs - rest) / k) := by
  have sides : sense.Compares ((k : K) * r + rest) rhs ↔
      (sense ≠ .ge → (k : K) * r + rest ≤ rhs) ∧ (sense ≠ .le → rhs ≤ (k : K) * r + rest) := by
    cases sense <;> simp [Sense.Compares, le_antisymm_iff]
  rw [sides]
  rcases lt_or_gt_of_ne hk with neg | pos
  · have below : (k : K) < 0 := Rat.cast_lt_zero.mpr neg
    rw [(holds_of_neg neg).1, (holds_of_neg neg).2, div_le_iff_of_neg below,
      le_div_iff_of_neg below]
    refine and_congr (imp_congr_right fun _ => ?_) (imp_congr_right fun _ => ?_) <;>
      constructor <;> intro h <;> linarith
  · have above : 0 < (k : K) := Rat.cast_pos.mpr pos
    rw [(holds_of_pos pos).1, (holds_of_pos pos).2, div_le_iff₀ above, le_div_iff₀ above, and_comm]
    refine and_congr (imp_congr_right fun _ => ?_) (imp_congr_right fun _ => ?_) <;>
      constructor <;> intro h <;> linarith

/-- The value at which a constraint holds with equality, the other variables given. -/
def limitAt (c : Constraint Exact) (v : ℕ) (k : Exact) (a : ℕ → ℚ) : ℚ :=
  (c.rhs.rational - LinearExpr.termsAt (c.expr.terms.filter fun t => t.1 ≠ v) a) / k.rational

/-- A constraint moves the ends on the sides on which it holds its variable. -/
theorem confine_eq {values : Array Exact} {v : ℕ} {k : Exact} {c : Constraint Exact}
    (bounds : Exact × Exact) (hc : c.IsNormal) (ht : (v, k) ∈ c.expr.terms) {a : ℕ → ℚ}
    (hv : ∀ t ∈ c.expr.terms, t.1 ≠ v → values.getD t.1 0 = finite (a t.1)) :
    confine values v bounds c k =
      (if holdsUp c.sense k then Scalar.larger bounds.1 (finite (limitAt c v k a)) else bounds.1,
        if holdsDown c.sense k then Scalar.smaller bounds.2 (finite (limitAt c v k a))
        else bounds.2) := by
  set others := c.expr.terms.filter fun t => t.1 ≠ v with hothers
  have rest : Scalar.sum (others.map fun t => t.2 * values.getD t.1 0) =
      finite (LinearExpr.termsAt others a) := by
    rw [LinearExpr.termsAt, ← sum_map_finite, List.map_map]
    refine congrArg Scalar.sum (List.map_congr_left fun t mem => ?_)
    obtain ⟨mem, differ⟩ := List.mem_filter.mp mem
    rw [hv t mem (by simpa using differ), Function.comp_apply, ← finite_mul,
      finite_rational (hc.expr.terms t mem)]
  have limited : (c.rhs - Scalar.sum (others.map fun t => t.2 * values.getD t.1 0)) / k =
      finite (limitAt c v k a) := by
    have k_finite : k = finite k.rational := (finite_rational (hc.expr.terms _ ht)).symm
    have hk : k.rational ≠ 0 := hc.coefficients _ ht
    rw [rest, k_finite, ← finite_rational hc.rhs, finite_sub, finite_div _ hk]
    rfl
  change (if holdsUp c.sense k then Scalar.larger bounds.1 _ else bounds.1,
    if holdsDown c.sense k then Scalar.smaller bounds.2 _ else bounds.2) = _
  rw [limited]

/-- The values that a constraint leaves to a variable are those at which it holds. -/
theorem interval_confine {values : Array Exact} {v : ℕ} {k : Exact} {c : Constraint Exact}
    {bounds : Exact × Exact} {P : ℚ → Prop} (hb : Interval bounds P) (hc : c.IsNormal)
    (ht : (v, k) ∈ c.expr.terms) (inside : v < values.size) {a : ℕ → ℚ}
    (hv : ∀ t ∈ c.expr.terms, t.1 ≠ v → values.getD t.1 0 = finite (a t.1)) :
    Interval (confine values v bounds c k) fun r =>
      P r ∧ c.isSatisfied (values.setIfInBounds v (finite r)) 0 = true := by
  obtain ⟨low, high, rfl, member⟩ := hb
  set limit := limitAt c v k a with hlimit
  have satisfied (r : ℚ) : c.isSatisfied (values.setIfInBounds v (finite r)) 0 = true ↔
      (holdsUp c.sense k = true → limit ≤ r) ∧ (holdsDown c.sense k = true → r ≤ limit) := by
    have named : ∀ t ∈ c.expr.terms, (values.setIfInBounds v (finite r)).getD t.1 0 =
        finite (Function.update a v r t.1) := by
      intro t mem
      by_cases same : t.1 = v
      · rw [same, Function.update_self, getD_set_self inside]
      · rw [Function.update_of_ne same, ← hv t mem same, getD_set_of_ne same]
    have left : c.expr.valueAt (Function.update a v r) =
        k.rational * r + LinearExpr.termsAt (c.expr.terms.filter fun t => t.1 ≠ v) a := by
      have constant : c.expr.constant.rational = 0 := by rw [hc.constant]; rfl
      rw [LinearExpr.valueAt, constant, LinearExpr.termsAt_eq_add hc.names ht,
        Function.update_self, zero_add]
      refine congrArg (k.rational * r + ·) (LinearExpr.termsAt_congr fun t mem => ?_)
      have differ : t.1 ≠ v := by simpa using (List.mem_filter.mp mem).2
      rw [Function.update_of_ne differ]
    have limits := compares_iff c.sense (hc.coefficients _ ht)
      (LinearExpr.termsAt (c.expr.terms.filter fun t => t.1 ≠ v) a) c.rhs.rational r
    rw [Rat.cast_id, finite_rational (hc.expr.terms _ ht)] at limits
    rw [zero_eq_finite, Constraint.isSatisfied_iff hc.toIsFinite named, Constraint.slackAt,
      Sense.passes_zero_iff, left, limits]
    rfl
  refine ⟨if holdsUp c.sense k then max low limit else low,
    if holdsDown c.sense k then min high limit else high, ?_, fun r => ?_⟩
  · rw [confine_eq _ hc ht hv, larger_finite, smaller_finite]
    split <;> split <;> rfl
  · dsimp only
    rw [satisfied, ← member]
    by_cases up : holdsUp c.sense k = true <;> by_cases down : holdsDown c.sense k = true <;>
      simp only [up, down, if_true, max_le_iff, le_min_iff, true_implies] <;> tauto

theorem interval_foldl_confine {values : Array Exact} {v : ℕ}
    {cs : List (Constraint Exact × Exact)} {bounds : Exact × Exact} {P : ℚ → Prop}
    (hb : Interval bounds P) (inside : v < values.size) {a : ℕ → ℚ}
    (h : ∀ e ∈ cs, e.1.IsNormal ∧ (v, e.2) ∈ e.1.expr.terms ∧
      ∀ t ∈ e.1.expr.terms, t.1 ≠ v → values.getD t.1 0 = finite (a t.1)) :
    Interval (cs.foldl (fun b e => confine values v b e.1 e.2) bounds) fun r =>
      P r ∧ ∀ e ∈ cs, e.1.isSatisfied (values.setIfInBounds v (finite r)) 0 = true := by
  induction cs generalizing bounds P with
  | nil => exact hb.congr fun r => by simp
  | cons e cs ih =>
    obtain ⟨⟨normal, term, named⟩, rest⟩ := List.forall_mem_cons.mp h
    refine (ih (interval_confine hb normal term inside named) rest).congr fun r => ?_
    rw [List.forall_mem_cons, and_assoc]

/-! ## Preferences -/

private theorem foldl_preference {ts : List (ℕ × Exact)}
    (hts : ∀ t ∈ ts, Scalar.isFinite t.2 = true) (sign p : ℚ) (v : ℕ) :
    ts.foldl (fun (p : Exact) t => if t.1 = v then p + finite sign * t.2 else p) (finite p) =
      finite (p + sign * LinearExpr.termsAt ts (Pi.single v 1)) := by
  induction ts generalizing p with
  | nil => simp
  | cons t ts ih =>
    obtain ⟨first, rest⟩ := List.forall_mem_cons.mp hts
    rw [List.foldl_cons, LinearExpr.termsAt_cons]
    by_cases same : t.1 = v
    · rw [if_pos same, ← finite_rational first, finite_mul, finite_add, ih rest, same,
        Pi.single_eq_same, rational_finite]
      congr 1
      ring
    · rw [if_neg same, ih rest, Pi.single_eq_of_ne same, mul_zero, zero_add]

/-- The preference for a variable is its coefficient, with the sign of the direction. -/
theorem preference_eq_coefficient {m : Program Exact} (hf : m.objective.IsFinite) (v : ℕ) :
    preference m v =
      finite (m.direction.sign * LinearExpr.termsAt m.objective.terms (Pi.single v 1)) := by
  have run : preference m v = m.objective.terms.foldl
      (fun (p : Exact) t => if t.1 = v then p + finite m.direction.sign * t.2 else p)
      (finite 0) := by
    unfold preference
    cases m.direction <;> rfl
  rw [run, foldl_preference hf.terms, zero_add]

/-! ## Groups -/

/-- The groups after one more, left out if it shares a member with an earlier one. -/
def withGroup (found : List (List ℕ)) : Option (List ℕ) → List (List ℕ)
  | some members =>
    if members.all fun v => !found.any (·.contains v) then found ++ [members] else found
  | none => found

/-- The groups are found by going through the constraints. -/
theorem groups_eq_foldl (m : Program α) :
    groups m = (m.constraints.toList.map (groupOf? m)).foldl withGroup [] := by
  rw [List.foldl_map]
  rfl

theorem foldl_withGroup_none {gs : List (Option (List ℕ))} (skipped : ∀ g ∈ gs, g = none)
    (found : List (List ℕ)) : gs.foldl withGroup found = found := by
  induction gs with
  | nil => rfl
  | cons g gs ih =>
    obtain ⟨rfl, rest⟩ := List.forall_mem_cons.mp skipped
    exact ih rest

/-- Groups that share no member are all taken. -/
theorem foldl_withGroup_some {gs found : List (List ℕ)} (distinct : (found ++ gs).flatten.Nodup) :
    (gs.map some).foldl withGroup found = found ++ gs := by
  induction gs generalizing found with
  | nil => rw [List.append_nil, List.map_nil, List.foldl_nil]
  | cons g gs ih =>
    have fresh : (g.all fun v => !found.any (·.contains v)) = true := by
      rw [List.all_eq_true]
      intro v hv
      rw [Bool.not_eq_true', List.any_eq_false]
      intro f hf again
      rw [List.flatten_append, List.flatten_cons] at distinct
      exact (List.nodup_append.mp distinct).2.2 v
        (List.mem_flatten_of_mem hf (List.contains_iff_mem.mp again)) v
        (List.mem_append_left _ hv) rfl
    have next : withGroup found (some g) = found ++ [g] := if_pos fresh
    rw [List.map_cons, List.foldl_cons, next, ih (by rwa [List.append_assoc]), List.append_assoc,
      List.singleton_append]

/-- Only what is offered is taken. -/
theorem mem_of_mem_foldl_withGroup {g : List ℕ} {gs : List (Option (List ℕ))}
    {found : List (List ℕ)} (h : g ∈ gs.foldl withGroup found) : g ∈ found ∨ some g ∈ gs := by
  induction gs generalizing found with
  | nil => exact .inl h
  | cons offer gs ih =>
    rcases ih h with h | h
    · cases offer with
      | none => exact .inl h
      | some members =>
        rw [withGroup] at h
        split at h
        · rcases List.mem_append.mp h with h | h
          · exact .inl h
          · obtain rfl := List.mem_singleton.mp h
            exact .inr List.mem_cons_self
        · exact .inl h
    · exact .inr (List.mem_cons_of_mem _ h)

/-! ## Setting the bits of a candidate -/

/-- What a candidate sets: its bits, group by group, and then the free ones. -/
def Space.writes (α : Type) [Scalar α] (s : Space) (choice : Path) : List (ℕ × α) :=
  ((s.groups.zip choice).flatMap fun g =>
    g.1.zipIdx.map fun e => (e.1, if e.2 = g.2 then 1 else 0)) ++
  (s.free.zip (choice.drop s.groups.length)).map fun e => (e.1, Scalar.ofNat e.2)

theorem assign_eq_foldl (s : Space) (choice : Path) (values : Array α) :
    s.assign choice values =
      (s.writes α choice).foldl (fun (values : Array α) e => values.setIfInBounds e.1 e.2)
        values := by
  rw [Space.writes, List.foldl_append, List.foldl_flatMap, List.foldl_map]
  simp only [List.foldl_map]
  rfl

theorem size_assign (s : Space) (choice : Path) (values : Array α) :
    (s.assign choice values).size = values.size := by
  rw [assign_eq_foldl, size_foldl_set]

/-! ## Settling -/

/-- The continuous variables of a program, each with what settles it. -/
theorem mem_settlings {m : Program α} {s : Settling α} :
    s ∈ settlings m ↔ ∃ w : Variable α, m.vars[s.index]? = some w ∧ w.kind = .continuous ∧
      s = ⟨s.index, m.exportName s.index, (w.lower, w.upper), confining m s.index,
        preference m s.index⟩ := by
  unfold settlings
  rw [List.mem_filterMap]
  constructor
  · rintro ⟨⟨w, i⟩, member, found⟩
    rw [List.mem_zipIdx_iff_getElem?, Array.getElem?_toList] at member
    by_cases kind : w.kind = .continuous
    · obtain rfl := Option.some.inj ((if_pos kind).symm.trans found)
      exact ⟨w, member, kind, rfl⟩
    · cases (if_neg kind).symm.trans found
  · rintro ⟨w, hw, kind, settles⟩
    refine ⟨(w, s.index), ?_, (if_pos kind).trans (congrArg some settles.symm)⟩
    rw [List.mem_zipIdx_iff_getElem?, Array.getElem?_toList]
    exact hw

theorem mem_index_settlings {m : Program α} {v : ℕ} :
    v ∈ (settlings m).map (·.index) ↔ m.isContinuous v = true := by
  rw [Program.isContinuous, List.mem_map]
  constructor
  · rintro ⟨s, hs, rfl⟩
    obtain ⟨w, hw, kind, -⟩ := mem_settlings.mp hs
    rw [hw, Option.any_some, beq_iff_eq]
    exact kind
  · intro continuous
    cases hv : m.vars[v]? with
    | none => rw [hv] at continuous; cases continuous
    | some w =>
      rw [hv, Option.any_some, beq_iff_eq] at continuous
      exact ⟨⟨v, m.exportName v, (w.lower, w.upper), confining m v, preference m v⟩,
        mem_settlings.mpr ⟨w, hv, continuous, rfl⟩, rfl⟩

/-- The greatest of the numbers with the property, or the least for a negative preference. -/
structure Picked (preference : ℚ) (P : ℚ → Prop) (y : ℚ) : Prop where
  holds : P y
  extreme : ∀ r, P r → if preference < 0 then y ≤ r else r ≤ y

private theorem pick?_finite (p low high : ℚ) : pick? (finite p : Exact) (finite low, finite high) =
    some (finite (if p < 0 then low else high)) := by
  have above : (0 : Exact) < finite p ↔ 0 < p := Iff.rfl
  have below : (finite p : Exact) < 0 ↔ p < 0 := Iff.rfl
  have zero : ((finite p : Exact) == 0) = decide (p = 0) := finite_beq p 0
  rcases lt_trichotomy p 0 with neg | rfl | pos
  · simp [pick?, above, below, neg, not_lt.mpr neg.le]
  · simp [pick?, above, below, zero]
  · simp [pick?, above, pos, not_lt.mpr pos.le]

theorem settle_eq_ok {s : Settling Exact} {values : Array Exact} {P : ℚ → Prop}
    (hb : Interval (s.confining.foldl (fun b e => confine values s.index b e.1 e.2) s.bounds) P)
    {p y tolerance : ℚ} (hp : s.preference = finite p) (pick : Picked p P y)
    (nonneg : 0 ≤ tolerance) :
    s.settle (finite tolerance) values =
      .ok (some (values.setIfInBounds s.index (finite y))) := by
  obtain ⟨low, high, ends, member⟩ := hb
  obtain ⟨low_le, le_high⟩ := (member y).mpr pick.holds
  have order : low ≤ high := low_le.trans le_high
  have value : (if p < 0 then low else high) = y := by
    split
    case isTrue neg =>
      have := pick.extreme low ((member low).mp ⟨le_rfl, order⟩)
      rw [if_pos neg] at this
      exact le_antisymm low_le this
    case isFalse nonneg =>
      have := pick.extreme high ((member high).mp ⟨order, le_rfl⟩)
      rw [if_neg nonneg] at this
      exact le_antisymm this le_high
  have proper : ¬ (finite high + finite tolerance : Exact) < finite low := by
    rw [finite_add, finite_lt]
    linarith
  unfold Settling.settle
  simp only
  rw [show s.confining.foldl (fun b x => confine values s.index b x.1 x.2) s.bounds =
    (finite low, finite high) from ends, if_neg proper, hp, pick?_finite, value]

theorem settle_eq_none {s : Settling Exact} {values : Array Exact} {P : ℚ → Prop}
    (hb : Interval (s.confining.foldl (fun b e => confine values s.index b e.1 e.2) s.bounds) P)
    (empty : ∀ r, ¬ P r) : s.settle 0 values = .ok none := by
  obtain ⟨low, high, ends, member⟩ := hb
  have crossed : high < low := not_le.mp fun order => empty low ((member low).mp ⟨le_rfl, order⟩)
  have below : (finite high + 0 : Exact) < finite low := by
    rw [zero_eq_finite, finite_add, finite_lt, add_zero]
    exact crossed
  unfold Settling.settle
  simp only
  rw [show s.confining.foldl (fun b x => confine values s.index b x.1 x.2) s.bounds =
    (finite low, finite high) from ends, if_pos below]

section Untouched

variable {tolerance : α} {values values' : Array α} {v : ℕ}

/-- Settling a variable sets no other one. -/
theorem getD_settle {s : Settling α} (h : s.settle tolerance values = .ok (some values'))
    (other : v ≠ s.index) : values'.getD v 0 = values.getD v 0 := by
  unfold Settling.settle at h
  dsimp only at h
  split at h
  · cases h
  · split at h
    · obtain rfl := Option.some.inj (Except.ok.inj h)
      exact getD_set_of_ne other _
    · cases h

/-- What is not continuous keeps its value while the continuous variables are settled. -/
theorem getD_settleAll {ss : List (Settling α)}
    (h : settleAll tolerance ss values = .ok (some values')) (other : v ∉ ss.map (·.index)) :
    values'.getD v 0 = values.getD v 0 := by
  induction ss generalizing values with
  | nil =>
    obtain rfl := Option.some.inj (Except.ok.inj h)
    rfl
  | cons s ss ih =>
    rw [List.map_cons, List.mem_cons, not_or] at other
    rw [settleAll] at h
    split at h
    case h_1 between run => rw [ih h other.2, getD_settle run other.1]
    case h_2 ends => exact absurd h (ends values')

end Untouched

/-- The values with every settled variable at what it settles to. -/
def settled (ss : List (Settling Exact)) (y : ℕ → ℚ) (values : Array Exact) : Array Exact :=
  ss.foldl (fun values s => values.setIfInBounds s.index (finite (y s.index))) values

/-- Variables that settle to the same values whatever the values of the others, as long as a
property of the array is kept, settle to these values together. -/
theorem settleAll_eq_ok {Q : Array Exact → Prop} {y : ℕ → ℚ} {tolerance : Exact}
    {ss : List (Settling Exact)}
    (step : ∀ s ∈ ss, ∀ values, Q values →
      s.settle tolerance values =
          .ok (some (values.setIfInBounds s.index (finite (y s.index)))) ∧
        Q (values.setIfInBounds s.index (finite (y s.index))))
    {values : Array Exact} (hQ : Q values) :
    settleAll tolerance ss values = .ok (some (settled ss y values)) := by
  induction ss generalizing values with
  | nil => rfl
  | cons s ss ih =>
    obtain ⟨run, kept⟩ := step s List.mem_cons_self values hQ
    rw [settleAll, run]
    exact ih (fun u hu => step u (List.mem_cons_of_mem _ hu)) kept

theorem settled_eq_foldl (ss : List (Settling Exact)) (y : ℕ → ℚ) (values : Array Exact) :
    settled ss y values = (ss.map fun s => (s.index, finite (y s.index))).foldl
      (fun (values : Array Exact) e => values.setIfInBounds e.1 e.2) values := by
  rw [List.foldl_map]
  rfl

theorem size_settled (ss : List (Settling Exact)) (y : ℕ → ℚ) (values : Array Exact) :
    (settled ss y values).size = values.size := by
  rw [settled_eq_foldl, size_foldl_set]

theorem getD_settled {ss : List (Settling Exact)} (y : ℕ → ℚ) {values : Array Exact}
    (inside : ∀ s ∈ ss, s.index < values.size) (v : ℕ) :
    (settled ss y values).getD v 0 =
      if v ∈ ss.map (·.index) then finite (y v) else values.getD v 0 := by
  rw [settled_eq_foldl, getD_foldl_set (t := fun v => finite (y v)), List.map_map]
  · rfl
  · rw [List.forall_mem_map]
    exact fun s _ => rfl
  · rw [List.forall_mem_map]
    exact inside

/-! ## Attempts -/

theorem attempt_of_settleAll {p : Plan α} {tolerance : α} {choice : Path} {values : Array α}
    (run : settleAll tolerance p.settlings
      (p.space.assign choice (Array.replicate p.program.vars.size 0)) = .ok (some values)) :
    p.attempt tolerance choice =
      .ok (if p.program.constraints.all (·.isSatisfied values tolerance) then
        some (p.scored choice values) else none) := by
  unfold Plan.attempt
  simp only [run, bind, Except.bind]
  split <;> rfl

theorem scored_eq (p : Plan Exact) (choice : Path) (values : Array Exact) :
    p.scored choice values =
      ⟨choice, finite p.program.direction.sign * p.program.objective.evaluate values, values⟩ := by
  unfold Plan.scored
  cases p.program.direction <;> rfl

theorem attempt_of_settled {p : Plan Exact} {tolerance : Exact} {choice : Path}
    {values : Array Exact}
    (run : settleAll tolerance p.settlings
      (p.space.assign choice (Array.replicate p.program.vars.size 0)) = .ok (some values)) :
    p.attempt tolerance choice =
      .ok (if p.program.constraints.all (·.isSatisfied values tolerance) then
        some ⟨choice, finite p.program.direction.sign * p.program.objective.evaluate values, values⟩
      else none) := by
  rw [attempt_of_settleAll run, scored_eq]

theorem attempt_of_unsettled {p : Plan α} {tolerance : α} {choice : Path}
    (run : settleAll tolerance p.settlings
      (p.space.assign choice (Array.replicate p.program.vars.size 0)) = .ok none) :
    p.attempt tolerance choice = .ok none := by
  unfold Plan.attempt
  simp only [run, bind, Except.bind]
  rfl

theorem attempt_of_error {p : Plan α} {tolerance : α} {choice : Path} {e : SolverError}
    (run : settleAll tolerance p.settlings
      (p.space.assign choice (Array.replicate p.program.vars.size 0)) = .error e) :
    p.attempt tolerance choice = .error e := by
  unfold Plan.attempt
  simp only [run, bind, Except.bind]

/-- A candidate that counts has all its continuous variables settled. -/
theorem settleAll_of_attempt {p : Plan α} {tolerance : α} {choice : Path} {top : Scored α}
    (h : p.attempt tolerance choice = .ok (some top)) :
    settleAll tolerance p.settlings
      (p.space.assign choice (Array.replicate p.program.vars.size 0)) = .ok (some top.values) := by
  obtain ⟨settled, run, h⟩ := except_bind_eq_ok.mp h
  cases settled with
  | none => cases h
  | some values =>
    dsimp only at h
    split at h
    · obtain rfl := Option.some.inj (Except.ok.inj h)
      exact run
    · cases h

/-- The best candidate so far after one more. -/
def Plan.next? (p : Plan α) (tolerance : α) (best : Option (Scored α)) (choice : Path) :
    Except SolverError (Option (Scored α)) := do
  match ← p.attempt tolerance choice with
  | none => pure best
  | some s => pure (better tolerance best s)

/-- The best candidate that counts, of candidates that know nothing of each other; one that cannot
be completed ends the search. -/
def Plan.best? (p : Plan α) (tolerance : α) (choices : List Path) :
    Except SolverError (Option (Scored α)) :=
  choices.foldlM (p.next? tolerance) none

theorem best?_eq_ok {p : Plan α} {tolerance : α} {choices : List Path}
    {found : Path → Option (Scored α)}
    (h : ∀ choice ∈ choices, p.attempt tolerance choice = .ok (found choice)) :
    p.best? tolerance choices = .ok ((choices.filterMap found).foldl (better tolerance) none) := by
  unfold Plan.best?
  generalize (none : Option (Scored α)) = best
  induction choices generalizing best with
  | nil => rfl
  | cons choice choices ih =>
    obtain ⟨first, rest⟩ := List.forall_mem_cons.mp h
    rw [List.foldlM_cons, Plan.next?, first, List.filterMap_cons]
    cases found choice with
    | none => exact ih rest best
    | some s => exact ih rest (better tolerance best s)

/-- A candidate that cannot be completed ends the search. -/
theorem best?_eq_error {p : Plan α} {tolerance : α} {choices : List Path}
    (h : ¬ ∀ choice ∈ choices, ∃ found, p.attempt tolerance choice = .ok found) :
    ∃ choice ∈ choices, ∃ e, p.attempt tolerance choice = .error e ∧
      p.best? tolerance choices = .error e := by
  unfold Plan.best?
  generalize (none : Option (Scored α)) = best
  induction choices generalizing best with
  | nil => simp at h
  | cons choice choices ih =>
    cases run : p.attempt tolerance choice with
    | error e =>
      refine ⟨choice, List.mem_cons_self, e, run, ?_⟩
      rw [List.foldlM_cons, Plan.next?, run]
      rfl
    | ok found =>
      have rest : ¬ ∀ c ∈ choices, ∃ found, p.attempt tolerance c = .ok found := fun all =>
        h (List.forall_mem_cons.mpr ⟨⟨found, run⟩, all⟩)
      rw [List.foldlM_cons, Plan.next?, run]
      cases found with
      | none =>
        obtain ⟨c, hc, e, fails, ends⟩ := ih rest best
        exact ⟨c, List.mem_cons_of_mem _ hc, e, fails, ends⟩
      | some s =>
        obtain ⟨c, hc, e, fails, ends⟩ := ih rest (better tolerance best s)
        exact ⟨c, List.mem_cons_of_mem _ hc, e, fails, ends⟩

/-- A search that comes to an end has completed every candidate. -/
theorem exists_found_of_best? {p : Plan α} {tolerance : α} {choices : List Path}
    {best : Option (Scored α)} (run : p.best? tolerance choices = .ok best) :
    ∃ found : Path → Option (Scored α),
      (∀ choice ∈ choices, p.attempt tolerance choice = .ok (found choice)) ∧
        (choices.filterMap found).foldl (better tolerance) none = best := by
  by_cases all : ∀ choice ∈ choices, ∃ found, p.attempt tolerance choice = .ok found
  · choose! found runs using all
    exact ⟨found, runs, Except.ok.inj ((best?_eq_ok runs).symm.trans run)⟩
  · obtain ⟨-, -, e, -, ends⟩ := best?_eq_error all
    cases run.symm.trans ends

theorem foldl_better_eq_none {tolerance : α} {ss : List (Scored α)}
    {best : Option (Scored α)} :
    ss.foldl (better tolerance) best = none ↔ best = none ∧ ss = [] := by
  induction ss generalizing best with
  | nil => simp
  | cons s ss ih =>
    have kept : better tolerance best s ≠ none := by
      cases best with
      | none => exact Option.some_ne_none s
      | some top =>
        unfold better
        dsimp only
        split <;> exact Option.some_ne_none _
    rw [List.foldl_cons, ih]
    simp [kept]

/-- Whatever the tolerance, what is kept was found. -/
theorem mem_of_foldl_better {tolerance : α} {ss : List (Scored α)}
    {best : Option (Scored α)} {top : Scored α}
    (h : ss.foldl (better tolerance) best = some top) : best = some top ∨ top ∈ ss := by
  induction ss generalizing best with
  | nil => exact .inl h
  | cons s ss ih =>
    rcases ih h with kept | later
    · cases best with
      | none =>
        obtain rfl := Option.some.inj kept
        exact .inr List.mem_cons_self
      | some first =>
        unfold better at kept
        dsimp only at kept
        split at kept
        · obtain rfl := Option.some.inj kept
          exact .inr List.mem_cons_self
        · exact .inl kept
    · exact .inr (List.mem_cons_of_mem _ later)

/-- What a search answers with is what an attempt made of a candidate. -/
theorem exists_attempt_of_best? {p : Plan α} {tolerance : α} {choices : List Path}
    {top : Scored α} (run : p.best? tolerance choices = .ok (some top)) :
    ∃ choice ∈ choices, p.attempt tolerance choice = .ok (some top) := by
  obtain ⟨found, runs, fold⟩ := exists_found_of_best? run
  rcases mem_of_foldl_better fold with start | kept
  · cases start
  · obtain ⟨choice, member, same⟩ := List.mem_filterMap.mp kept
    exact ⟨choice, member, same ▸ runs choice member⟩

/-- What is kept at a tolerance: scores never fall, and none exceeds the last by more than it. -/
private theorem foldl_better_spec {t : ℚ} (nonneg : 0 ≤ t) {best top : Scored Exact}
    {ss : List (Scored Exact)} (scores : ∀ s ∈ best :: ss, Scalar.isFinite s.score = true)
    (h : ss.foldl (better (finite t)) (some best) = some top) :
    best.score.rational ≤ top.score.rational ∧
      ∀ s ∈ best :: ss, s.score.rational ≤ top.score.rational + t := by
  induction ss generalizing best with
  | nil =>
    obtain rfl := Option.some.inj h
    simpa using nonneg
  | cons s ss ih =>
    obtain ⟨hb, hs, rest⟩ := List.forall_mem_cons.mp scores |>.imp_right List.forall_mem_cons.mp
    have beats : best.score + finite t < s.score ↔
        best.score.rational + t < s.score.rational := by
      rw [← finite_rational hb, ← finite_rational hs, finite_add, finite_lt, rational_finite,
        rational_finite]
    rw [List.foldl_cons, better] at h
    by_cases wins : best.score.rational + t < s.score.rational
    · rw [if_pos (beats.mpr wins)] at h
      obtain ⟨grows, within⟩ := ih (List.forall_mem_cons.mpr ⟨hs, rest⟩) h
      exact ⟨by linarith, List.forall_mem_cons.mpr ⟨by linarith, within⟩⟩
    · rw [if_neg fun lt => wins (beats.mp lt)] at h
      obtain ⟨grows, within⟩ := ih (List.forall_mem_cons.mpr ⟨hb, rest⟩) h
      obtain ⟨own, others⟩ := List.forall_mem_cons.mp within
      refine ⟨grows, List.forall_mem_cons.mpr ⟨own, List.forall_mem_cons.mpr ⟨?_, others⟩⟩⟩
      linarith

/-- No candidate beats the one that is kept by more than the tolerance. -/
theorem le_of_foldl_better {t : ℚ} (nonneg : 0 ≤ t) {ss : List (Scored Exact)}
    {top : Scored Exact} (scores : ∀ s ∈ ss, Scalar.isFinite s.score = true)
    (h : ss.foldl (better (finite t)) none = some top) :
    ∀ s ∈ ss, s.score.rational ≤ top.score.rational + t := by
  cases ss with
  | nil => simp
  | cons s ss => exact (foldl_better_spec nonneg scores h).2

/-- At tolerance zero the search keeps a candidate of the greatest score. -/
theorem best_spec {ss : List (Scored Exact)} {top : Scored Exact}
    (scores : ∀ s ∈ ss, Scalar.isFinite s.score = true)
    (h : ss.foldl (better 0) none = some top) :
    top ∈ ss ∧ ∀ s ∈ ss, s.score.rational ≤ top.score.rational := by
  refine ⟨(mem_of_foldl_better h).resolve_left nofun, fun s hs => ?_⟩
  have within := le_of_foldl_better le_rfl scores h s hs
  rwa [add_zero] at within

end Search

end Influence
