import Mathlib.Algebra.BigOperators.Ring.List
import Mathlib.Algebra.Notation.Pi.Basic
import Mathlib.Data.List.Nodup
import Influence.Program.LinearExpr
import Influence.Proofs.Exact

/-!
# Values of linear expressions

`LinearExpr.valueAt` reads an expression as a function of a rational assignment.  On an
expression with finite coefficients it is what `evaluate` computes (`evaluate_eq`), and each
operation on expressions is the operation on values; `compact` changes the terms but not the
value (`valueAt_compact`), names every variable once (`nodup_compact`), and leaves expressions
alone that do so already, each with a coefficient (`compact_of_nodup`).
-/

namespace Influence.LinearExpr

open Extended

/-- The value of a list of terms. -/
def termsAt (ts : List (ℕ × Exact)) (a : ℕ → ℚ) : ℚ :=
  (ts.map fun t => t.2.rational * a t.1).sum

/-- The value at a rational assignment. -/
def valueAt (e : LinearExpr Exact) (a : ℕ → ℚ) : ℚ := e.constant.rational + termsAt e.terms a

/-- The constant and all coefficients are finite. -/
structure IsFinite (e : LinearExpr Exact) : Prop where
  constant : Scalar.isFinite e.constant = true
  terms : ∀ t ∈ e.terms, Scalar.isFinite t.2 = true

@[simp] theorem termsAt_nil (a : ℕ → ℚ) : termsAt [] a = 0 := rfl

@[simp] theorem termsAt_cons (t : ℕ × Exact) (ts : List (ℕ × Exact)) (a : ℕ → ℚ) :
    termsAt (t :: ts) a = t.2.rational * a t.1 + termsAt ts a := by
  simp [termsAt]

@[simp] theorem termsAt_append (ts us : List (ℕ × Exact)) (a : ℕ → ℚ) :
    termsAt (ts ++ us) a = termsAt ts a + termsAt us a := by
  simp [termsAt]

/-! ## Evaluation -/

theorem evaluate_eq {e : LinearExpr Exact} (he : e.IsFinite) {values : Array Exact} {a : ℕ → ℚ}
    (hv : ∀ t ∈ e.terms, values.getD t.1 0 = finite (a t.1)) :
    e.evaluate values = finite (e.valueAt a) := by
  have products : e.terms.map (fun t => t.2 * values.getD t.1 0) =
      (e.terms.map fun t => t.2.rational * a t.1).map finite := by
    rw [List.map_map]
    refine List.map_congr_left fun t ht => ?_
    rw [hv t ht, Function.comp_apply, ← finite_mul, finite_rational (he.terms t ht)]
  change e.constant + Scalar.sum (e.terms.map fun t => t.2 * values.getD t.1 0) = _
  rw [products, sum_map_finite, ← finite_rational he.constant, finite_add]
  rfl

/-! ## Building expressions -/

theorem isFinite_const (x : ℚ) : (const (finite x)).IsFinite := ⟨rfl, by simp [const]⟩

theorem isFinite_term (v : ℕ) (c : ℚ) : (term v (finite c)).IsFinite :=
  ⟨rfl, by simp [term]⟩

theorem isFinite_var (v : ℕ) : (var v : LinearExpr Exact).IsFinite := isFinite_term v 1

theorem isFinite_ofTerms {ts : List (ℕ × Exact)}
    (h : ∀ t ∈ ts, Scalar.isFinite t.2 = true) : (ofTerms ts).IsFinite := ⟨rfl, h⟩

@[simp] theorem valueAt_const (x : ℚ) (a : ℕ → ℚ) : (const (finite x)).valueAt a = x := by
  simp [valueAt, const]

@[simp] theorem valueAt_term (v : ℕ) (c : ℚ) (a : ℕ → ℚ) :
    (term v (finite c)).valueAt a = c * a v := by
  simp [valueAt, term, zero_eq_finite]

@[simp] theorem valueAt_var (v : ℕ) (a : ℕ → ℚ) : (var v : LinearExpr Exact).valueAt a = a v := by
  rw [var, one_eq_finite, valueAt_term, one_mul]

@[simp] theorem valueAt_ofTerms (ts : List (ℕ × Exact)) (a : ℕ → ℚ) :
    (ofTerms ts).valueAt a = termsAt ts a := by
  simp [valueAt, ofTerms, zero_eq_finite]

theorem IsFinite.add {e e' : LinearExpr Exact} (he : e.IsFinite) (he' : e'.IsFinite) :
    (e + e').IsFinite where
  constant := by
    change Scalar.isFinite (e.constant + e'.constant) = true
    rw [← finite_rational he.constant, ← finite_rational he'.constant, finite_add]
    rfl
  terms t ht := (List.mem_append.mp ht).elim (he.terms t) (he'.terms t)

theorem valueAt_add {e e' : LinearExpr Exact} (he : e.IsFinite) (he' : e'.IsFinite)
    (a : ℕ → ℚ) : (e + e').valueAt a = e.valueAt a + e'.valueAt a := by
  have constants : (e.constant + e'.constant).rational =
      e.constant.rational + e'.constant.rational := by
    rw [← finite_rational he.constant, ← finite_rational he'.constant, finite_add]
    rfl
  change (e.constant + e'.constant).rational + termsAt (e.terms ++ e'.terms) a = _
  rw [constants, termsAt_append, valueAt, valueAt]
  ring

theorem IsFinite.scale {e : LinearExpr Exact} (he : e.IsFinite) (k : ℚ) :
    (e.scale (finite k)).IsFinite where
  constant := by
    change Scalar.isFinite (e.constant * finite k) = true
    rw [← finite_rational he.constant, finite_mul]
    rfl
  terms t ht := by
    obtain ⟨u, hu, rfl⟩ := List.mem_map.mp ht
    change Scalar.isFinite (u.2 * finite k) = true
    rw [← finite_rational (he.terms u hu), finite_mul]
    rfl

private theorem termsAt_scale {ts : List (ℕ × Exact)}
    (hts : ∀ t ∈ ts, Scalar.isFinite t.2 = true) (k : ℚ) (a : ℕ → ℚ) :
    termsAt (ts.map fun t => (t.1, t.2 * finite k)) a = k * termsAt ts a := by
  induction ts with
  | nil => simp
  | cons t ts ih =>
    have head : (t.2 * finite k).rational = t.2.rational * k := by
      rw [← finite_rational (hts t List.mem_cons_self), finite_mul]
      rfl
    rw [List.map_cons, termsAt_cons, ih fun u hu => hts u (List.mem_cons_of_mem _ hu), head,
      termsAt_cons]
    ring

theorem valueAt_scale {e : LinearExpr Exact} (he : e.IsFinite) (k : ℚ) (a : ℕ → ℚ) :
    (e.scale (finite k)).valueAt a = k * e.valueAt a := by
  have constant : (e.constant * finite k).rational = k * e.constant.rational := by
    rw [← finite_rational he.constant, finite_mul, rational_finite, rational_finite, mul_comm]
  change (e.constant * finite k).rational +
    termsAt (e.terms.map fun t => (t.1, t.2 * finite k)) a = _
  rw [constant, termsAt_scale he.terms, valueAt, mul_add]

theorem sub_def (e e' : LinearExpr Exact) : e - e' = e + e'.scale (finite (-1)) := rfl

theorem IsFinite.sub {e e' : LinearExpr Exact} (he : e.IsFinite) (he' : e'.IsFinite) :
    (e - e').IsFinite := he.add (he'.scale (-1))

theorem valueAt_sub {e e' : LinearExpr Exact} (he : e.IsFinite) (he' : e'.IsFinite)
    (a : ℕ → ℚ) : (e - e').valueAt a = e.valueAt a - e'.valueAt a := by
  rw [sub_def, valueAt_add he (he'.scale (-1)), valueAt_scale he']
  ring

private theorem foldl_constants {es : List (LinearExpr Exact)} (hes : ∀ e ∈ es, e.IsFinite)
    (x : ℚ) : es.foldl (fun c e => c + e.constant) (finite x) =
      finite (x + (es.map fun e => e.constant.rational).sum) := by
  induction es generalizing x with
  | nil => simp
  | cons e es ih =>
    rw [List.foldl_cons, ← finite_rational (hes e List.mem_cons_self).constant, finite_add,
      ih fun e he => hes e (List.mem_cons_of_mem _ he), List.map_cons, List.sum_cons, add_assoc]

theorem isFinite_sum {es : List (LinearExpr Exact)} (hes : ∀ e ∈ es, e.IsFinite) :
    (sum es).IsFinite where
  constant := by
    change Scalar.isFinite (es.foldl (fun c e => c + e.constant) (finite 0)) = true
    rw [foldl_constants hes]
    rfl
  terms t ht := by
    obtain ⟨e, he, ht⟩ := List.mem_flatMap.mp ht
    exact (hes e he).terms t ht

theorem valueAt_sum {es : List (LinearExpr Exact)} (hes : ∀ e ∈ es, e.IsFinite) (a : ℕ → ℚ) :
    (sum es).valueAt a = (es.map fun e => e.valueAt a).sum := by
  have constant : (sum es).constant = finite (es.map fun e => e.constant.rational).sum := by
    change es.foldl (fun c e => c + e.constant) (finite 0) = _
    rw [foldl_constants hes, zero_add]
  have terms : termsAt (es.flatMap (·.terms)) a = (es.map fun e => termsAt e.terms a).sum := by
    clear constant hes
    induction es with
    | nil => rfl
    | cons e es ih => rw [List.flatMap_cons, termsAt_append, ih, List.map_cons, List.sum_cons]
  change (sum es).constant.rational + termsAt (es.flatMap (·.terms)) a = _
  rw [constant, terms, rational_finite, ← List.sum_map_add]
  rfl

/-! ## Names of merged terms -/

section Names

variable {α : Type} [Scalar α]

theorem mem_mergeTerm {v : ℕ} {c : α} {ts : List (ℕ × α)} {t : ℕ × α}
    (h : t ∈ mergeTerm v c ts) : t.1 = v ∨ t.1 ∈ ts.map (·.1) := by
  induction ts with
  | nil => exact .inl (by simpa [mergeTerm] using congrArg (·.1) (List.mem_singleton.mp h))
  | cons u ts ih =>
    unfold mergeTerm at h
    rw [List.map_cons, List.mem_cons]
    split at h
    · rcases List.mem_cons.mp h with rfl | h
      · exact .inr (.inl rfl)
      · exact .inr (.inr (List.mem_map_of_mem h))
    · rcases List.mem_cons.mp h with rfl | h
      · exact .inr (.inl rfl)
      · exact (ih h).imp_right .inr

theorem mergeTerm_of_notMem {v : ℕ} {c : α} {ts : List (ℕ × α)}
    (h : v ∉ ts.map (·.1)) : mergeTerm v c ts = ts ++ [(v, c)] := by
  induction ts with
  | nil => rfl
  | cons u ts ih =>
    rw [List.map_cons, List.mem_cons, not_or] at h
    rw [mergeTerm, if_neg (Ne.symm h.1), ih h.2, List.cons_append]

/-- Merging a list of terms into others names no new variable. -/
private theorem mem_foldl_mergeTerm (us ts : List (ℕ × α)) :
    ∀ t ∈ ts.foldl (fun merged t => mergeTerm t.1 t.2 merged) us,
      t.1 ∈ us.map (·.1) ∨ t.1 ∈ ts.map (·.1) := by
  induction ts generalizing us with
  | nil => exact fun t ht => .inl (List.mem_map_of_mem ht)
  | cons u ts ih =>
    intro t ht
    rw [List.map_cons, List.mem_cons]
    rcases ih _ t ht with h | h
    · obtain ⟨w, hw, hwt⟩ := List.mem_map.mp h
      rcases mem_mergeTerm hw with h | h
      · exact .inr (.inl (hwt.symm.trans h))
      · exact .inl (hwt ▸ h)
    · exact .inr (.inr h)

/-- Compacting names no new variable. -/
theorem mem_terms_of_mem_compact {e : LinearExpr α} {t : ℕ × α}
    (ht : t ∈ e.compact.terms) : t.1 ∈ e.terms.map (·.1) := by
  have h := mem_foldl_mergeTerm [] e.terms t (List.mem_filter.mp ht).1
  simpa using h

private theorem foldl_mergeTerm_of_nodup (us : List (ℕ × α)) {ts : List (ℕ × α)}
    (h : ((us ++ ts).map (·.1)).Nodup) :
    ts.foldl (fun merged t => mergeTerm t.1 t.2 merged) us = us ++ ts := by
  induction ts generalizing us with
  | nil => rw [List.foldl_nil, List.append_nil]
  | cons t ts ih =>
    have fresh : t.1 ∉ us.map (·.1) := by
      rw [List.map_append, List.map_cons] at h
      exact fun hmem => (List.nodup_append.mp h).2.2 t.1 hmem t.1 List.mem_cons_self rfl
    rw [List.foldl_cons, mergeTerm_of_notMem fresh, ih _ (by simpa using h), List.append_assoc]
    rfl

/-- Terms that name every variable once, each with a coefficient, are compact. -/
theorem compact_of_nodup {e : LinearExpr α} (names : (e.terms.map (·.1)).Nodup)
    (coefficients : ∀ t ∈ e.terms, (t.2 == 0) = false) : e.compact = e := by
  have merged : mergeTerms e.terms = e.terms := foldl_mergeTerm_of_nodup [] names
  have kept : (mergeTerms e.terms).filter (fun t => !(t.2 == 0)) = e.terms := by
    rw [merged, List.filter_eq_self]
    exact fun t ht => by rw [coefficients t ht]; rfl
  change { e with terms := (mergeTerms e.terms).filter fun t => !(t.2 == 0) } = e
  rw [kept]

end Names

/-! ## Merging terms -/

theorem isFinite_mergeTerm {v : ℕ} {c : Exact} {ts : List (ℕ × Exact)}
    (hc : Scalar.isFinite c = true) (hts : ∀ t ∈ ts, Scalar.isFinite t.2 = true) :
    ∀ t ∈ mergeTerm v c ts, Scalar.isFinite t.2 = true := by
  induction ts with
  | nil => simpa [mergeTerm] using hc
  | cons u ts ih =>
    have hu := hts u List.mem_cons_self
    have hrest : ∀ t ∈ ts, Scalar.isFinite t.2 = true :=
      fun t ht => hts t (List.mem_cons_of_mem _ ht)
    intro t ht
    unfold mergeTerm at ht
    split at ht
    · rcases List.mem_cons.mp ht with rfl | ht
      · change Scalar.isFinite (u.2 + c) = true
        rw [← finite_rational hu, ← finite_rational hc, finite_add]
        rfl
      · exact hrest t ht
    · rcases List.mem_cons.mp ht with rfl | ht
      · exact hu
      · exact ih hrest t ht

theorem termsAt_mergeTerm {v : ℕ} {c : Exact} {ts : List (ℕ × Exact)}
    (hc : Scalar.isFinite c = true) (hts : ∀ t ∈ ts, Scalar.isFinite t.2 = true) (a : ℕ → ℚ) :
    termsAt (mergeTerm v c ts) a = c.rational * a v + termsAt ts a := by
  induction ts with
  | nil => simp [mergeTerm]
  | cons u ts ih =>
    have hu := hts u List.mem_cons_self
    unfold mergeTerm
    split
    case isTrue h =>
      have merged : (u.2 + c).rational = u.2.rational + c.rational := by
        rw [← finite_rational hu, ← finite_rational hc, finite_add]
        rfl
      rw [termsAt_cons, merged, termsAt_cons, h]
      ring
    case isFalse =>
      rw [termsAt_cons, ih fun t ht => hts t (List.mem_cons_of_mem _ ht), termsAt_cons]
      ring

/-- What merging a list of terms into others keeps: finiteness and the value. -/
private theorem foldl_mergeTerm (us : List (ℕ × Exact)) {ts : List (ℕ × Exact)}
    (hts : ∀ t ∈ ts, Scalar.isFinite t.2 = true) (hus : ∀ t ∈ us, Scalar.isFinite t.2 = true) :
    (∀ t ∈ ts.foldl (fun merged t => mergeTerm t.1 t.2 merged) us,
        Scalar.isFinite t.2 = true) ∧
      ∀ a, termsAt (ts.foldl (fun merged t => mergeTerm t.1 t.2 merged) us) a =
        termsAt us a + termsAt ts a := by
  induction ts generalizing us with
  | nil => exact ⟨hus, fun a => by simp⟩
  | cons u ts ih =>
    have hu := hts u List.mem_cons_self
    obtain ⟨isFinite, value⟩ := ih _ (fun t ht => hts t (List.mem_cons_of_mem _ ht))
      (isFinite_mergeTerm (v := u.1) hu hus)
    refine ⟨isFinite, fun a => ?_⟩
    rw [List.foldl_cons, value, termsAt_mergeTerm hu hus, termsAt_cons]
    ring

/-- Terms without a coefficient contribute nothing. -/
private theorem termsAt_filter {ts : List (ℕ × Exact)}
    (hts : ∀ t ∈ ts, Scalar.isFinite t.2 = true) (a : ℕ → ℚ) :
    termsAt (ts.filter fun t => !(t.2 == 0)) a = termsAt ts a := by
  induction ts with
  | nil => rfl
  | cons t ts ih =>
    have ih := ih fun u hu => hts u (List.mem_cons_of_mem _ hu)
    have ht := finite_rational (hts t List.mem_cons_self)
    rw [List.filter_cons, termsAt_cons]
    split
    case isTrue => rw [termsAt_cons, ih]
    case isFalse h =>
      rw [← ht, zero_eq_finite, finite_beq] at h
      have hzero : t.2.rational = 0 := by simpa using h
      rw [ih, hzero]
      ring

theorem IsFinite.compact {e : LinearExpr Exact} (he : e.IsFinite) : e.compact.IsFinite where
  constant := he.constant
  terms t ht :=
    (foldl_mergeTerm [] he.terms (by simp)).1 t (List.mem_filter.mp ht).1

theorem valueAt_compact {e : LinearExpr Exact} (he : e.IsFinite) (a : ℕ → ℚ) :
    e.compact.valueAt a = e.valueAt a := by
  have merged := foldl_mergeTerm [] he.terms (by simp)
  have filtered := termsAt_filter merged.1 a
  change e.constant.rational + termsAt ((mergeTerms e.terms).filter fun t => !(t.2 == 0)) a = _
  rw [mergeTerms, filtered, merged.2 a, termsAt_nil, zero_add]
  rfl

/-! ## Coefficients -/

/-- Merging keeps names apart. -/
private theorem nodup_mergeTerm {v : ℕ} {c : Exact} {ts : List (ℕ × Exact)}
    (h : (ts.map (·.1)).Nodup) :
    ((mergeTerm v c ts).map (·.1)).Nodup ∧
      ∀ w, w ∈ (mergeTerm v c ts).map (·.1) → w = v ∨ w ∈ ts.map (·.1) := by
  induction ts with
  | nil => simp [mergeTerm]
  | cons t ts ih =>
    rw [List.map_cons, List.nodup_cons] at h
    unfold mergeTerm
    by_cases same : t.1 = v
    · rw [if_pos same, List.map_cons, List.nodup_cons]
      exact ⟨h, fun w hw => .inr hw⟩
    · obtain ⟨distinct, names⟩ := ih h.2
      rw [if_neg same, List.map_cons, List.nodup_cons]
      refine ⟨⟨fun again => ?_, distinct⟩, fun w hw => ?_⟩
      · rcases names _ again with eq | member
        · exact same eq
        · exact h.1 member
      · rw [List.map_cons, List.mem_cons]
        rcases List.mem_cons.mp hw with rfl | hw
        · exact .inr (.inl rfl)
        · exact (names w hw).imp_right .inr

/-- A compact expression names every variable once. -/
theorem nodup_compact (e : LinearExpr Exact) : (e.compact.terms.map (·.1)).Nodup := by
  have merged (ts us : List (ℕ × Exact)) (h : (us.map (·.1)).Nodup) :
      ((ts.foldl (fun merged t => mergeTerm t.1 t.2 merged) us).map (·.1)).Nodup := by
    induction ts generalizing us with
    | nil => exact h
    | cons t ts ih => exact ih _ (nodup_mergeTerm h).1
  have sublist : (e.compact.terms.map (·.1)).Sublist ((mergeTerms e.terms).map (·.1)) :=
    List.filter_sublist.map _
  exact sublist.nodup (merged e.terms [] List.nodup_nil)

/-- One variable of a sum apart from the others, whatever the terms contribute. -/
theorem sum_map_eq_add {M : Type} [AddCommMonoid M] {ts : List (ℕ × Exact)}
    (names : (ts.map (·.1)).Nodup) {t : ℕ × Exact} (ht : t ∈ ts) (f : ℕ × Exact → M) :
    (ts.map f).sum = f t + ((ts.filter fun u => u.1 ≠ t.1).map f).sum := by
  induction ts with
  | nil => cases ht
  | cons u ts ih =>
    rw [List.map_cons, List.nodup_cons] at names
    rcases List.mem_cons.mp ht with rfl | ht
    · have others : ts.filter (fun u => u.1 ≠ t.1) = ts :=
        List.filter_eq_self.mpr fun u hu =>
          decide_eq_true fun same => names.1 (same ▸ List.mem_map_of_mem hu)
      rw [List.filter_cons_of_neg (by simp), others, List.map_cons, List.sum_cons]
    · have differ : u.1 ≠ t.1 := fun same => names.1 (same ▸ List.mem_map_of_mem ht)
      rw [List.filter_cons_of_pos (by simpa using differ), List.map_cons, List.sum_cons,
        List.map_cons, List.sum_cons, ih names.2 ht, add_left_comm]

theorem termsAt_eq_add {ts : List (ℕ × Exact)} (names : (ts.map (·.1)).Nodup) {t : ℕ × Exact}
    (ht : t ∈ ts) (a : ℕ → ℚ) :
    termsAt ts a = t.2.rational * a t.1 + termsAt (ts.filter fun u => u.1 ≠ t.1) a :=
  sum_map_eq_add names ht fun u => u.2.rational * a u.1

theorem termsAt_congr {ts : List (ℕ × Exact)} {a b : ℕ → ℚ} (h : ∀ t ∈ ts, a t.1 = b t.1) :
    termsAt ts a = termsAt ts b :=
  congrArg List.sum (List.map_congr_left fun t ht => by rw [h t ht])

theorem termsAt_eq_zero {ts : List (ℕ × Exact)} {a : ℕ → ℚ} (h : ∀ t ∈ ts, a t.1 = 0) :
    termsAt ts a = 0 := by
  induction ts with
  | nil => rfl
  | cons t ts ih =>
    obtain ⟨first, rest⟩ := List.forall_mem_cons.mp h
    rw [termsAt_cons, first, mul_zero, ih rest, add_zero]

theorem valueAt_zero (e : LinearExpr Exact) : e.valueAt 0 = e.constant.rational := by
  rw [valueAt, termsAt_eq_zero fun _ _ => rfl, add_zero]

/-- The coefficient of a variable that is named once. -/
theorem termsAt_single {ts : List (ℕ × Exact)} (names : (ts.map (·.1)).Nodup) {t : ℕ × Exact}
    (ht : t ∈ ts) : termsAt ts (Pi.single t.1 1) = t.2.rational := by
  rw [termsAt_eq_add names ht, Pi.single_eq_same, mul_one,
    termsAt_eq_zero fun u hu => Pi.single_eq_of_ne (by simpa using (List.mem_filter.mp hu).2) 1,
    add_zero]

/-- A variable whose coefficients do not cancel is named with their sum. -/
theorem mem_terms_compact {e : LinearExpr Exact} (he : e.IsFinite) {v : ℕ} {k : ℚ} (hk : k ≠ 0)
    (coefficient : e.valueAt (Pi.single v 1) - e.valueAt 0 = k) :
    (v, finite k) ∈ e.compact.terms := by
  have same : termsAt e.compact.terms (Pi.single v 1) = k := by
    have h := valueAt_compact he (Pi.single v 1)
    change e.constant.rational + termsAt e.compact.terms (Pi.single v 1) = _ at h
    rw [← coefficient, ← h, valueAt_zero, add_sub_cancel_left]
  by_cases named : v ∈ e.compact.terms.map (·.1)
  · obtain ⟨⟨w, c⟩, ht, rfl⟩ := List.mem_map.mp named
    rw [termsAt_single (nodup_compact e) ht] at same
    rwa [← same, finite_rational (he.compact.terms _ ht)]
  · have other : ∀ t ∈ e.compact.terms, (Pi.single v 1 : ℕ → ℚ) t.1 = 0 := fun t ht =>
      Pi.single_eq_of_ne (fun eq : t.1 = v => named (eq ▸ List.mem_map_of_mem ht)) 1
    rw [termsAt_eq_zero other] at same
    exact absurd same.symm hk

/-- The only term of a variable. -/
theorem filter_eq_singleton {ts : List (ℕ × Exact)} (names : (ts.map (·.1)).Nodup)
    {keep : ℕ × Exact → Bool} {t : ℕ × Exact} (ht : t ∈ ts)
    (h : ∀ u ∈ ts, keep u = true ↔ u.1 = t.1) : ts.filter keep = [t] := by
  induction ts with
  | nil => cases ht
  | cons u ts ih =>
    rw [List.map_cons, List.nodup_cons] at names
    obtain ⟨first, rest⟩ := List.forall_mem_cons.mp h
    rcases List.mem_cons.mp ht with rfl | ht
    · have others : ts.filter keep = [] := List.filter_eq_nil_iff.mpr fun w hw kept =>
        names.1 ((rest w hw).mp kept ▸ List.mem_map_of_mem hw)
      rw [List.filter_cons_of_pos (first.mpr rfl), others]
    · have differ : ¬ keep u = true := fun kept =>
        names.1 (first.mp kept ▸ List.mem_map_of_mem ht)
      rw [List.filter_cons_of_neg differ, ih names.2 ht rest]

end Influence.LinearExpr
