import Mathlib.Data.List.Induction
import Influence.Proofs.Building
import Influence.Proofs.Feasible

/-!
# Expressions as they are written

A formula is how a linear expression is put together: from constants, terms and variables, by sums,
differences, opposites and multiples, by adding to what is there, and by compacting at any place.
`Formula.build` carries this out, and `Formula.value` is the number that the formula stands for at
an assignment.  Evaluating what is built gives that number (`Formula.build_denotes`).

Compacting keeps the value, and what it leaves is determined by the formula: every variable with a
coefficient other than zero has one term with that coefficient (`mem_terms_compact_iff`), and the
terms stand in the order in which the variables first appear (`pairwise_idxOf_compact`).
-/

namespace Influence

open Extended

/-! ## The order of merged terms -/

namespace LinearExpr

variable {α : Type} [Scalar α]

/-- The variables of terms. -/
def names (ts : List (ℕ × α)) : List ℕ := ts.map (·.1)

omit [Scalar α] in
theorem names_concat (ts : List (ℕ × α)) (t : ℕ × α) : names (ts ++ [t]) = names ts ++ [t.1] := by
  rw [names, List.map_append, List.map_singleton, names]

/-- A variable that has a term already gets no other one. -/
theorem names_mergeTerm_of_mem {v : ℕ} {c : α} {ts : List (ℕ × α)} (h : v ∈ names ts) :
    names (mergeTerm v c ts) = names ts := by
  induction ts with
  | nil => cases h
  | cons t ts ih =>
    unfold mergeTerm
    split
    case isTrue => rfl
    case isFalse other =>
      have later : v ∈ names ts := (List.mem_cons.mp h).resolve_left fun same => other same.symm
      exact congrArg (t.1 :: ·) (ih later)

theorem mergeTerms_concat (ts : List (ℕ × α)) (t : ℕ × α) :
    mergeTerms (ts ++ [t]) = mergeTerm t.1 t.2 (mergeTerms ts) := by
  rw [mergeTerms, List.foldl_append]
  rfl

/-- Merged terms stand in the order in which the variables first appear. -/
theorem mergeTerms_spec (ts : List (ℕ × α)) : (∀ v, v ∈ names (mergeTerms ts) ↔ v ∈ names ts) ∧
    (names (mergeTerms ts)).Pairwise fun v w => (names ts).idxOf v < (names ts).idxOf w := by
  induction ts using List.reverseRecOn with
  | nil => exact ⟨fun v => Iff.rfl, .nil⟩
  | append_singleton ts t ih =>
    obtain ⟨member, order⟩ := ih
    have known : ∀ v ∈ names (mergeTerms ts), (names (ts ++ [t])).idxOf v = (names ts).idxOf v := by
      intro v hv
      rw [names_concat, List.idxOf_append_of_mem ((member v).mp hv)]
    have order' : (names (mergeTerms ts)).Pairwise fun v w =>
        (names (ts ++ [t])).idxOf v < (names (ts ++ [t])).idxOf w := by
      refine order.imp_of_mem fun hv hw below => ?_
      rwa [known _ hv, known _ hw]
    rw [mergeTerms_concat]
    by_cases again : t.1 ∈ names (mergeTerms ts)
    · rw [names_mergeTerm_of_mem again]
      refine ⟨fun v => ?_, order'⟩
      rw [member, names_concat, List.mem_append, List.mem_singleton]
      refine ⟨.inl, fun h => h.elim id ?_⟩
      rintro rfl
      exact (member _).mp again
    · rw [mergeTerm_of_notMem again, names_concat]
      refine ⟨fun v => ?_, List.pairwise_append.mpr ⟨order', List.pairwise_singleton _ _, ?_⟩⟩
      · rw [List.mem_append, member, names_concat, List.mem_append]
      · intro v hv w hw
        have new : t.1 ∉ names ts := mt (member _).mpr again
        rw [List.mem_singleton.mp hw, known v hv, names_concat, List.idxOf_append_of_notMem new,
          List.idxOf_cons_self, Nat.add_zero]
        exact List.idxOf_lt_length_of_mem ((member v).mp hv)

/-- The terms of a compact expression stand in the order in which the variables first appear. -/
theorem pairwise_idxOf_compact (e : LinearExpr α) : (names e.compact.terms).Pairwise fun v w =>
    (names e.terms).idxOf v < (names e.terms).idxOf w :=
  (mergeTerms_spec e.terms).2.sublist (List.filter_sublist.map _)

theorem coefficient_of_mem_compact {e : LinearExpr α} {t : ℕ × α} (ht : t ∈ e.compact.terms) :
    (t.2 == 0) = false :=
  (Bool.not_eq_true' _).mp (List.mem_filter.mp ht).2

/-! ## Single steps -/

section Steps

variable {e : LinearExpr Exact} (he : e.IsFinite)

include he

theorem IsFinite.neg : (-e).IsFinite := he.scale (-1)

theorem valueAt_neg (a : ℕ → ℚ) : (-e).valueAt a = -e.valueAt a := by
  change (e.scale (finite (-1))).valueAt a = _
  rw [valueAt_scale he, neg_one_mul]

theorem IsFinite.addTerm (v : ℕ) (c : ℚ) : (e.addTerm v (finite c)).IsFinite where
  constant := he.constant
  terms t ht := by
    rcases List.mem_append.mp ht with ht | ht
    · exact he.terms t ht
    · rw [List.mem_singleton.mp ht]
      rfl

omit he in
theorem valueAt_addTerm (e : LinearExpr Exact) (v : ℕ) (c : ℚ) (a : ℕ → ℚ) :
    (e.addTerm v (finite c)).valueAt a = e.valueAt a + c * a v := by
  change e.constant.rational + termsAt (e.terms ++ [(v, finite c)]) a = _
  rw [termsAt_append, termsAt_cons, termsAt_nil, rational_finite, add_zero, ← add_assoc]
  rfl

theorem IsFinite.addConstant (x : ℚ) : (e.addConstant (finite x)).IsFinite where
  constant := by
    change Scalar.isFinite (e.constant + finite x) = true
    rw [← finite_rational he.constant, finite_add]
    rfl
  terms := he.terms

theorem valueAt_addConstant (x : ℚ) (a : ℕ → ℚ) :
    (e.addConstant (finite x)).valueAt a = e.valueAt a + x := by
  change (e.constant + finite x).rational + termsAt e.terms a = _
  rw [← finite_rational he.constant, finite_add, rational_finite, valueAt]
  ring

/-- A compact expression has a term for every variable whose coefficients do not cancel. -/
theorem mem_terms_compact_iff {v : ℕ} {c : Exact} : (v, c) ∈ e.compact.terms ↔
    c = finite (e.valueAt (Pi.single v 1) - e.valueAt 0) ∧
      e.valueAt (Pi.single v 1) - e.valueAt 0 ≠ 0 := by
  constructor
  · intro h
    have own : termsAt e.compact.terms (Pi.single v 1) = c.rational :=
      termsAt_single (nodup_compact e) h
    have read : finite c.rational = c := finite_rational (he.compact.terms _ h)
    have nonzero : c.rational ≠ 0 := by
      have kept := coefficient_of_mem_compact h
      rw [← read, zero_eq_finite, finite_beq, decide_eq_false_iff_not] at kept
      exact kept
    have coefficient : e.valueAt (Pi.single v 1) - e.valueAt 0 = c.rational := by
      rw [← valueAt_compact he, ← valueAt_compact he, valueAt_zero, valueAt, own,
        add_sub_cancel_left]
    rw [coefficient, read]
    exact ⟨rfl, nonzero⟩
  · rintro ⟨rfl, nonzero⟩
    exact mem_terms_compact he nonzero rfl

end Steps

/-- Compacting again changes nothing. -/
theorem compact_compact (e : LinearExpr Exact) : e.compact.compact = e.compact :=
  compact_of_nodup (nodup_compact e) fun _ ht => coefficient_of_mem_compact ht

end LinearExpr

/-! ## Formulas -/

/-- How an expression is put together.  Adding to an expression in place is the sum, and taking away
from it the difference. -/
inductive Formula where
  | const (x : ℚ)
  | term (v : ℕ) (c : ℚ)
  | var (v : ℕ)
  | add (f g : Formula)
  | sub (f g : Formula)
  | neg (f : Formula)
  | scale (f : Formula) (k : ℚ)
  | addTerm (f : Formula) (v : ℕ) (c : ℚ)
  | addConstant (f : Formula) (x : ℚ)
  | sum (fs : List Formula)
  | compact (f : Formula)

namespace Formula

open LinearExpr

/-- The expression that is put together. -/
def build : Formula → LinearExpr Exact
  | const x => .const (finite x)
  | term v c => .term v (finite c)
  | var v => .var v
  | add f g => f.build + g.build
  | sub f g => f.build - g.build
  | neg f => -f.build
  | scale f k => f.build.scale (finite k)
  | addTerm f v c => f.build.addTerm v (finite c)
  | addConstant f x => f.build.addConstant (finite x)
  | sum fs => .sum (fs.map build)
  | compact f => f.build.compact

/-- The number that a formula stands for. -/
def value (a : ℕ → ℚ) : Formula → ℚ
  | const x => x
  | term v c => c * a v
  | var v => a v
  | add f g => f.value a + g.value a
  | sub f g => f.value a - g.value a
  | neg f => -f.value a
  | scale f k => f.value a * k
  | addTerm f v c => f.value a + c * a v
  | addConstant f x => f.value a + x
  | sum fs => (fs.map (value a)).sum
  | compact f => f.value a

/-- The coefficient of a variable. -/
def coefficient (f : Formula) (v : ℕ) : ℚ := f.value (Pi.single v 1) - f.value 0

/-- What is put together is finite and has the value of the formula. -/
theorem build_spec : ∀ f : Formula, f.build.IsFinite ∧ ∀ a, f.build.valueAt a = f.value a
  | const x => by
    rw [build]
    exact ⟨isFinite_const x, fun a => by rw [valueAt_const, value]⟩
  | term v c => by
    rw [build]
    exact ⟨isFinite_term v c, fun a => by rw [valueAt_term, value]⟩
  | var v => by
    rw [build]
    exact ⟨isFinite_var v, fun a => by rw [valueAt_var, value]⟩
  | add f g => by
    obtain ⟨hf, readf⟩ := build_spec f
    obtain ⟨hg, readg⟩ := build_spec g
    rw [build]
    exact ⟨hf.add hg, fun a => by rw [valueAt_add hf hg, readf, readg, value]⟩
  | sub f g => by
    obtain ⟨hf, readf⟩ := build_spec f
    obtain ⟨hg, readg⟩ := build_spec g
    rw [build]
    exact ⟨hf.sub hg, fun a => by rw [valueAt_sub hf hg, readf, readg, value]⟩
  | neg f => by
    obtain ⟨hf, read⟩ := build_spec f
    rw [build]
    exact ⟨hf.neg, fun a => by rw [valueAt_neg hf, read, value]⟩
  | scale f k => by
    obtain ⟨hf, read⟩ := build_spec f
    rw [build]
    exact ⟨hf.scale k, fun a => by rw [valueAt_scale hf, read, value, mul_comm]⟩
  | addTerm f v c => by
    obtain ⟨hf, read⟩ := build_spec f
    rw [build]
    exact ⟨hf.addTerm v c, fun a => by rw [valueAt_addTerm, read, value]⟩
  | addConstant f x => by
    obtain ⟨hf, read⟩ := build_spec f
    rw [build]
    exact ⟨hf.addConstant x, fun a => by rw [valueAt_addConstant hf, read, value]⟩
  | sum fs => by
    have parts : ∀ f ∈ fs, f.build.IsFinite ∧ ∀ a, f.build.valueAt a = f.value a :=
      fun f hf => build_spec f
    have built : ∀ e ∈ fs.map build, e.IsFinite := by
      intro e he
      obtain ⟨f, hf, rfl⟩ := List.mem_map.mp he
      exact (parts f hf).1
    rw [build]
    refine ⟨isFinite_sum built, fun a => ?_⟩
    rw [valueAt_sum built, List.map_map, value]
    exact congrArg List.sum (List.map_congr_left fun f hf => (parts f hf).2 a)
  | compact f => by
    obtain ⟨hf, read⟩ := build_spec f
    rw [build]
    exact ⟨hf.compact, fun a => by rw [valueAt_compact hf, read, value]⟩

/-! ## Assignments -/

/-- The assignment that a list of values is; variables past its end are zero. -/
def valuesAt (values : Array ℚ) (v : ℕ) : ℚ := values.getD v 0

theorem getD_map_finite (values : Array ℚ) (v : ℕ) :
    (values.map finite).getD v 0 = finite (valuesAt values v) := by
  rw [valuesAt, Array.getD_eq_getD_getElem?, Array.getD_eq_getD_getElem?, Array.getElem?_map,
    zero_eq_finite, Option.getD_map]

/-- Evaluating what is put together gives the value of the formula, and so does evaluating it when
it is compact.  The compact expression lists the variables whose coefficient is not zero, each once,
in the order in which they first appear, and is compact already.  A constraint made from the
expression has its constant on the right only, and holds up to a tolerance where the formula
compares with the right side up to that tolerance. -/
theorem build_denotes (f : Formula) :
    (∀ values : Array ℚ,
      f.build.evaluate (values.map finite) = finite (f.value (valuesAt values)) ∧
      f.build.compact.evaluate (values.map finite) = finite (f.value (valuesAt values))) ∧
    (names f.build.compact.terms).Nodup ∧
    (names f.build.compact.terms).Pairwise (fun v w =>
      (names f.build.terms).idxOf v < (names f.build.terms).idxOf w) ∧
    (∀ v c, (v, c) ∈ f.build.compact.terms ↔
      c = finite (f.coefficient v) ∧ f.coefficient v ≠ 0) ∧
    f.build.compact.compact = f.build.compact ∧
    ∀ (m : Program Exact) (sense : Sense) (rhs : ℚ) (isLazy : Bool), ∃ c,
      Succeeds (Program.constrain f.build sense (finite rhs) isLazy) m m.constraints.size
        (m.withConstraint c) ∧
      c.expr.constant = 0 ∧ c.sense = sense ∧ c.isLazy = isLazy ∧
      ∀ (values : Array ℚ) (t : ℚ), c.isSatisfied (values.map finite) (finite t) = true ↔
        sense.Passes t (f.value (valuesAt values) - rhs) := by
  obtain ⟨hf, read⟩ := build_spec f
  have coefficient (v : ℕ) : f.coefficient v =
      f.build.valueAt (Pi.single v 1) - f.build.valueAt 0 := by
    rw [Formula.coefficient, read, read]
  refine ⟨fun values => ⟨?_, ?_⟩, nodup_compact f.build, pairwise_idxOf_compact f.build,
    fun v c => ?_, compact_compact f.build, fun m sense rhs isLazy => ?_⟩
  · rw [evaluate_eq hf fun t _ => getD_map_finite values t.1, read]
  · rw [evaluate_eq hf.compact fun t _ => getD_map_finite values t.1, valueAt_compact hf, read]
  · rw [coefficient]
    exact mem_terms_compact_iff hf
  · refine ⟨Program.normalized f.build sense (finite rhs) isLazy, rfl,
      (Program.isNormal_normalized hf sense rhs isLazy).constant, rfl, rfl, fun values t => ?_⟩
    rw [Program.isSatisfied_normalized_iff hf fun t _ => getD_map_finite values t.1, read]

end Formula

end Influence
