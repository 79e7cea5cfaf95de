import Influence.Log.Trace
import Mathlib.Data.String.Basic

/-!
# The history of a log

What the steps of a log say without running it.  A span is open as long as there are more open spans
than when it was entered (`IsOpen`); it knows what it was told last, when it was entered or later
while it was the innermost (`Knows`); and an event inherits what the innermost open span that knows
anything knows (`Inherits`).  None of this depends on later steps, and one more step changes it in
few ways (`isOpen_concat`, `knows_concat`).

Fields are collected in a table by ascending name, where each has the value that it was given last
(`lookup_collect`, `ascending_collect`).
-/

namespace Influence

/-! ## Fields -/

namespace LogFields

/-- The last value of a field. -/
def lastValue? (fields : List (String × Document)) (name : String) : Option Document :=
  fields.reverse.lookup name

/-- The last value of a field, as text. -/
def lastText? (fields : List (String × Document)) (name : String) : Option String :=
  (lastValue? fields name).map valueText

theorem lookup_cons_ite (e : String × Document) (table : List (String × Document))
    (name : String) :
    (e :: table).lookup name = if name = e.1 then some e.2 else table.lookup name := by
  obtain ⟨key, x⟩ := e
  by_cases same : name = key
  · subst same
    simp
  · have differ : (name == key) = false := beq_false_of_ne same
    simp [List.lookup_cons, differ, same]

theorem lookup_putSorted (key : String) (x : Document) (table : List (String × Document))
    (name : String) : (Document.putSorted key x table).lookup name =
      if name = key then some x else table.lookup name := by
  induction table with
  | nil => exact lookup_cons_ite (key, x) [] name
  | cons entry table ih =>
    obtain ⟨k, y⟩ := entry
    unfold Document.putSorted
    split
    case isTrue => exact lookup_cons_ite (key, x) _ name
    case isFalse =>
      split
      case isTrue same =>
        subst same
        rw [lookup_cons_ite, lookup_cons_ite]
        split <;> rfl
      case isFalse other =>
        rw [lookup_cons_ite, lookup_cons_ite, ih]
        by_cases hk : name = k
        · rw [if_pos hk, if_neg fun same => other (same.symm.trans hk), if_pos hk]
        · rw [if_neg hk, if_neg hk]

theorem keys_putSorted {key : String} {x : Document} {table : List (String × Document)}
    {e : String × Document} (h : e ∈ Document.putSorted key x table) :
    e.1 = key ∨ e ∈ table := by
  induction table with
  | nil => exact .inl (List.mem_singleton.mp h ▸ rfl)
  | cons entry table ih => grind [Document.putSorted]

theorem ascending_putSorted {table : List (String × Document)}
    (h : table.Pairwise fun a b => a.1 < b.1) (key : String) (x : Document) :
    (Document.putSorted key x table).Pairwise fun a b => a.1 < b.1 := by
  induction table with
  | nil => exact List.pairwise_singleton _ _
  | cons entry table ih =>
    obtain ⟨least, rest⟩ := List.pairwise_cons.mp h
    unfold Document.putSorted
    split
    case isTrue before =>
      refine List.pairwise_cons.mpr ⟨fun e he => ?_, h⟩
      rcases List.mem_cons.mp he with rfl | he
      · exact before
      · exact before.trans (least e he)
    case isFalse notBefore =>
      split
      case isTrue same => exact List.pairwise_cons.mpr ⟨fun e he => same ▸ least e he, rest⟩
      case isFalse other =>
        refine List.pairwise_cons.mpr ⟨fun e he => ?_, ih rest⟩
        rcases keys_putSorted he with same | he
        · exact same ▸ lt_of_le_of_ne (not_lt.mp notBefore) (Ne.symm other)
        · exact least e he

private theorem lookup_foldl_putSorted (fields table : List (String × Document)) (name : String) :
    (fields.foldl (fun table (name, value) => Document.putSorted name value table) table).lookup
      name = (lastValue? fields name).or (table.lookup name) := by
  induction fields generalizing table with
  | nil => rfl
  | cons field fields ih =>
    rw [List.foldl_cons, ih, lookup_putSorted, lastValue?, lastValue?, List.reverse_cons,
      List.lookup_append, Option.or_assoc, lookup_cons_ite]
    split <;> rfl

theorem lookup_collect (fields : List (String × Document)) (name : String) :
    (collect fields).lookup name = lastValue? fields name := by
  rw [collect, lookup_foldl_putSorted, List.lookup_nil, Option.or_none]

theorem text?_collect (fields : List (String × Document)) (name : String) :
    text? (collect fields) name = lastText? fields name := by
  rw [text?, lookup_collect, lastText?]

theorem ascending_collect (fields : List (String × Document)) :
    (collect fields).Pairwise fun a b => a.1 < b.1 := by
  unfold collect
  generalize start : ([] : List (String × Document)) = table
  have ascending : table.Pairwise fun a b => a.1 < b.1 := start ▸ List.Pairwise.nil
  clear start
  induction fields generalizing table with
  | nil => exact ascending
  | cons field fields ih => exact ih _ (ascending_putSorted ascending field.1 field.2)

theorem lookup_filter_key (keep : String → Bool) (table : List (String × Document))
    (name : String) : (table.filter fun e => keep e.1).lookup name =
      if keep name then table.lookup name else none := by
  induction table with
  | nil => simp
  | cons entry table ih =>
    rw [List.filter_cons, lookup_cons_ite]
    split
    case isTrue kept =>
      rw [lookup_cons_ite, ih]
      by_cases same : name = entry.1
      · rw [if_pos same, if_pos same, same, if_pos kept]
      · rw [if_neg same, if_neg same]
    case isFalse dropped =>
      rw [ih]
      by_cases same : name = entry.1
      · rw [same, if_neg dropped, if_neg dropped]
      · rw [if_neg same]

/-- Of the fields that a span was declared with, all are left. -/
theorem lastText?_filter (declared : List String) (fields : List (String × Document))
    (name : String) : lastText? (fields.filter fun (name, _) => declared.contains name) name =
      if name ∈ declared then lastText? fields name else none := by
  have kept := lookup_filter_key declared.contains fields.reverse name
  rw [lastText?, lastValue?, ← List.filter_reverse, kept]
  by_cases mem : name ∈ declared
  · rw [if_pos (List.contains_iff_mem.mpr mem), if_pos mem, lastText?, lastValue?]
  · rw [if_neg (mt List.contains_iff_mem.mp mem), if_neg mem]
    rfl

end LogFields

open LogFields

/-! ## The history of a log -/

namespace LogStep

/-- How many spans are open after some steps. -/
def depth (steps : List LogStep) : ℕ :=
  steps.foldl (fun n step =>
    match step with
    | .enter _ => n + 1
    | .leave => n - 1
    | _ => n) 0

/-- The span entered at step `i` is open at step `k`: since it was entered, there have been more
open spans than before. -/
structure IsOpen (steps : List LogStep) (i k : ℕ) : Prop where
  entered : ∃ span, steps[i]? = some (.enter span)
  before : i < k
  inside : ∀ j, i < j → j ≤ k → depth (steps.take i) < depth (steps.take j)

/-- No span that was entered later is open. -/
def IsInnermost (steps : List LogStep) (i k : ℕ) : Prop :=
  IsOpen steps i k ∧ ∀ j, i < j → ¬ IsOpen steps j k

/-- Step `j` tells the span entered at step `i` a text for a field that it was declared with: the
last one given for the field. -/
inductive Tells (steps : List LogStep) (name : String) (i : ℕ) : ℕ → String → Prop
  | enter {span : Span} {v : String} (entered : steps[i]? = some (.enter span))
      (declared : name ∈ span.declared) (told : lastText? span.fields name = some v) :
      Tells steps name i i v
  | record {span : Span} {j : ℕ} {fields : List (String × Document)} {v : String}
      (entered : steps[i]? = some (.enter span)) (recorded : steps[j]? = some (.record fields))
      (innermost : IsInnermost steps i j) (declared : name ∈ span.declared)
      (told : lastText? fields name = some v) : Tells steps name i j v

/-- What the span entered at step `i` was told last before step `k`. -/
def Knows (steps : List LogStep) (name : String) (i k : ℕ) (v : String) : Prop :=
  ∃ j < k, Tells steps name i j v ∧ ∀ j', j < j' → j' < k → ∀ v', ¬ Tells steps name i j' v'

/-- What the innermost span that is open at step `k` and knows the field knows. -/
def Inherits (steps : List LogStep) (name : String) (k : ℕ) (v : String) : Prop :=
  ∃ i, IsOpen steps i k ∧ Knows steps name i k v ∧
    ∀ i', i < i' → IsOpen steps i' k → ∀ v', ¬ Knows steps name i' k v'

/-- The step is an event. -/
def isEvent : LogStep → Bool
  | .event _ => true
  | _ => false

/-- How many events there are among some steps. -/
def eventCount (steps : List LogStep) : ℕ := steps.countP isEvent

/-! ### One more step -/

variable {steps : List LogStep} {step : LogStep} {name v : String} {i j k : ℕ}

theorem depth_concat : depth (steps ++ [step]) =
    match step with
    | .enter _ => depth steps + 1
    | .leave => depth steps - 1
    | _ => depth steps := by
  rw [depth, List.foldl_append]
  rfl

theorem IsOpen.lt_length (h : IsOpen steps i k) : i < steps.length := by
  obtain ⟨span, entered⟩ := h.entered
  exact (List.getElem?_eq_some_iff.mp entered).1

/-- What was open does not depend on later steps. -/
theorem isOpen_append (more : List LogStep) (hk : k ≤ steps.length) :
    IsOpen (steps ++ more) i k ↔ IsOpen steps i k := by
  have early {j : ℕ} (hj : j ≤ k) : (steps ++ more).take j = steps.take j :=
    List.take_append_of_le_length (hj.trans hk)
  constructor
  · intro h
    have hi := h.before
    refine ⟨?_, hi, fun j hij hjk => ?_⟩
    · rw [← List.getElem?_append_left (by omega : i < steps.length)]
      exact h.entered
    · rw [← early hi.le, ← early hjk]
      exact h.inside j hij hjk
  · intro h
    have hi := h.before
    refine ⟨?_, hi, fun j hij hjk => ?_⟩
    · rw [List.getElem?_append_left (by omega)]
      exact h.entered
    · rw [early hi.le, early hjk]
      exact h.inside j hij hjk

theorem isInnermost_append (more : List LogStep) (hk : k ≤ steps.length) :
    IsInnermost (steps ++ more) i k ↔ IsInnermost steps i k := by
  simp only [IsInnermost, isOpen_append more hk]

theorem Tells.le (h : Tells steps name i j v) : i ≤ j := by
  cases h with
  | enter => exact le_rfl
  | record _ _ innermost => exact innermost.1.before.le

theorem tells_append (more : List LogStep) (hj : j < steps.length) :
    Tells (steps ++ more) name i j v ↔ Tells steps name i j v := by
  have early {j' : ℕ} (hj' : j' ≤ j) : (steps ++ more)[j']? = steps[j']? :=
    List.getElem?_append_left (hj'.trans_lt hj)
  constructor
  · intro h
    have before := h.le
    cases h with
    | enter entered declared told => exact .enter (early before ▸ entered) declared told
    | record entered recorded innermost declared told =>
      exact .record (early before ▸ entered) (early le_rfl ▸ recorded)
        ((isInnermost_append more hj.le).mp innermost) declared told
  · intro h
    have before := h.le
    cases h with
    | enter entered declared told => exact .enter ((early before).trans entered) declared told
    | record entered recorded innermost declared told =>
      exact .record ((early before).trans entered) ((early le_rfl).trans recorded)
        ((isInnermost_append more hj.le).mpr innermost) declared told

theorem knows_append (more : List LogStep) (hk : k ≤ steps.length) :
    Knows (steps ++ more) name i k v ↔ Knows steps name i k v := by
  refine exists_congr fun j => and_congr_right fun hj => and_congr
    (tells_append more (hj.trans_le hk)) (forall₄_congr fun j' _ hj' v' => ?_)
  rw [tells_append more (hj'.trans_le hk)]

theorem inherits_append (more : List LogStep) (hk : k ≤ steps.length) :
    Inherits (steps ++ more) name k v ↔ Inherits steps name k v := by
  simp only [Inherits, isOpen_append more hk, knows_append more hk]

/-- Only recording tells a span that was entered before anything. -/
theorem not_tells_concat (hi : i < steps.length) (other : ∀ fields, step ≠ .record fields) :
    ¬ Tells (steps ++ [step]) name i steps.length v := by
  intro tells
  cases tells with
  | enter => exact lt_irrefl _ hi
  | record _ recorded =>
    rw [List.getElem?_concat_length, Option.some.injEq] at recorded
    exact other _ recorded

/-- A span is open after a step if it was entered by it, or was open before and is still inside. -/
theorem isOpen_concat : IsOpen (steps ++ [step]) i (steps.length + 1) ↔
    (i = steps.length ∧ ∃ span, step = .enter span) ∨
      IsOpen steps i steps.length ∧ depth (steps.take i) < depth (steps ++ [step]) := by
  have whole : (steps ++ [step]).take (steps.length + 1) = steps ++ [step] :=
    List.take_of_length_le (by simp)
  have early {j : ℕ} (hj : j ≤ steps.length) : (steps ++ [step]).take j = steps.take j :=
    List.take_append_of_le_length hj
  constructor
  · intro h
    have hi := h.lt_length
    rw [List.length_append, List.length_singleton] at hi
    rcases Nat.lt_succ_iff_lt_or_eq.mp hi with hi | rfl
    · have now := h.inside (steps.length + 1) (by omega) le_rfl
      rw [whole, early hi.le] at now
      refine .inr ⟨(isOpen_append [step] le_rfl).mp ⟨h.entered, hi, fun j hij hj => ?_⟩, now⟩
      exact h.inside j hij (by omega)
    · obtain ⟨span, entered⟩ := h.entered
      rw [List.getElem?_concat_length, Option.some.injEq] at entered
      exact .inl ⟨rfl, span, entered⟩
  · rintro (⟨rfl, span, rfl⟩ | ⟨h, now⟩)
    · refine ⟨⟨span, List.getElem?_concat_length⟩, Nat.lt_succ_self _, fun j hij hj => ?_⟩
      obtain rfl : j = steps.length + 1 := by omega
      rw [whole, early le_rfl, List.take_length, depth_concat]
      exact Nat.lt_succ_self _
    · have before := (isOpen_append [step] le_rfl).mpr h
      refine ⟨before.entered, by have := h.before; omega, fun j hij hj => ?_⟩
      rcases Nat.lt_succ_iff_lt_or_eq.mp (Nat.lt_succ_of_le hj) with hj | rfl
      · exact before.inside j hij (by omega)
      · rw [whole, early h.before.le]
        exact now

/-- After a step a span knows what the step told it, or else what it knew before. -/
theorem knows_concat : Knows (steps ++ [step]) name i (steps.length + 1) v ↔
    Tells (steps ++ [step]) name i steps.length v ∨
      (∀ v', ¬ Tells (steps ++ [step]) name i steps.length v') ∧
        Knows steps name i steps.length v := by
  rw [← knows_append [step] le_rfl]
  constructor
  · rintro ⟨j, hj, told, last⟩
    rcases Nat.lt_succ_iff_lt_or_eq.mp hj with hj | rfl
    · refine .inr ⟨last _ hj (Nat.lt_succ_self _), j, hj, told, fun j' hj' hn => ?_⟩
      exact last j' hj' (by omega)
    · exact .inl told
  · rintro (told | ⟨silent, j, hj, told, last⟩)
    · exact ⟨_, Nat.lt_succ_self _, told, fun j' hj' hn => by omega⟩
    · refine ⟨j, by omega, told, fun j' hj' hn => ?_⟩
      rcases Nat.lt_succ_iff_lt_or_eq.mp hn with hn | rfl
      · exact last j' hj' hn
      · exact silent

end LogStep

end Influence
