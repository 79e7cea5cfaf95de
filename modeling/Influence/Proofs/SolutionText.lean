import Influence.Program.Solution
import Influence.Proofs.Feasible
import Influence.Proofs.LineText
import Influence.Proofs.Success

/-!
# Solutions as text

A solution is written as one line per variable, with the name that the variable has in exported
files and its value.  Where such names are plain and the values read back, the text is taken apart
into these lines again, and every value goes to the variable that the name on its line means
(`ofText_text`).  Which one that is is not the matter here: of two lines for one variable the later
counts (`getD_placed_of_last`), and a variable that no line means is zero
(`getD_placed_of_notMem`).
-/

namespace Influence

open Text Numeral

/-- A name that is one field and does not open a comment. -/
structure IsPlain (name : String) : Prop where
  field : IsField name.toList
  content : name.toList.head? ≠ some '#'

variable {α : Type}

/-! ## Values on numbered lines -/

/-- The values, each at the place that its number is taken to, set one after the other. -/
def placed (place : ℕ → ℕ) (values start : Array α) : Array α :=
  (values.toList.zipIdx.map fun e => (place e.2, e.1)).foldl
    (fun values e => values.setIfInBounds e.1 e.2) start

section Placed

variable {place : ℕ → ℕ} {i : ℕ}

theorem size_placed (place : ℕ → ℕ) (values start : Array α) :
    (placed place values start).size = start.size :=
  size_foldl_set _ _

variable [Scalar α]

private theorem getD_foldl_of_ne {xs : List α} {n : ℕ}
    (h : ∀ v, n ≤ v → v < n + xs.length → place v ≠ i) (start : Array α) :
    (((xs.zipIdx n).map fun e => (place e.2, e.1)).foldl
      (fun values e => values.setIfInBounds e.1 e.2) start).getD i 0 = start.getD i 0 := by
  induction xs generalizing n start with
  | nil => rfl
  | cons x xs ih =>
    rw [List.zipIdx_cons, List.map_cons, List.foldl_cons,
      ih fun v low high => h v (by omega) (by rw [List.length_cons]; omega),
      getD_set_of_ne (h n le_rfl (by rw [List.length_cons]; omega)).symm]

private theorem getD_foldl_of_last {xs : List α} {n v : ℕ} (hv : v < xs.length)
    (own : place (n + v) = i) (later : ∀ w, v < w → w < xs.length → place (n + w) ≠ i)
    {start : Array α} (hi : i < start.size) :
    (((xs.zipIdx n).map fun e => (place e.2, e.1)).foldl
      (fun values e => values.setIfInBounds e.1 e.2) start).getD i 0 = xs[v] := by
  induction xs generalizing n v start with
  | nil => exact absurd hv (Nat.not_lt_zero _)
  | cons x xs ih =>
    rw [List.length_cons] at hv later
    rw [List.zipIdx_cons, List.map_cons, List.foldl_cons]
    cases v with
    | zero =>
      rw [Nat.add_zero] at own
      rw [getD_foldl_of_ne, own, getD_set_self hi, List.getElem_cons_zero]
      intro w low high
      have behind := later (w - n) (by omega) (by omega)
      rwa [Nat.add_sub_cancel' (by omega)] at behind
    | succ v =>
      rw [List.getElem_cons_succ]
      refine ih (by omega) (by rw [← own]; congr 1; omega) (fun w low high => ?_)
        (by rwa [Array.size_setIfInBounds])
      have behind := later (w + 1) (by omega) (by omega)
      rwa [show n + (w + 1) = n + 1 + w by omega] at behind

/-- A place that no value is taken to keeps what it had. -/
theorem getD_placed_of_notMem {values start : Array α}
    (h : ∀ v < values.size, place v ≠ i) :
    (placed place values start).getD i 0 = start.getD i 0 :=
  getD_foldl_of_ne (fun v _ high => h v (by simpa using high)) start

/-- A place has the last of the values that are taken to it. -/
theorem getD_placed_of_last {values start : Array α} {v : ℕ} (hv : v < values.size)
    (own : place v = i) (later : ∀ w, v < w → w < values.size → place w ≠ i)
    (hi : i < start.size) : (placed place values start).getD i 0 = values[v] := by
  refine (getD_foldl_of_last (n := 0) (by simpa using hv) (by rwa [Nat.zero_add])
    (fun w low high => ?_) hi).trans (Array.getElem_toList _)
  rw [Nat.zero_add]
  exact later w low (by simpa using high)

end Placed

namespace Solution

variable [Numeral α] {m : Program α} {s : Solution α}

/-! ## The lines -/

/-- The line that tells the objective. -/
def objectiveLine (s : Solution α) : List Char :=
  "# Objective value = ".toList ++ (write s.objective).toList

/-- The line of a variable. -/
def valueLine (m : Program α) (v : ℕ) (x : α) : List Char :=
  (m.exportName v).toList ++ ' ' :: (write x).toList

private theorem toList_lines (front : String) (m : Program α) (y : α) (entries : List (α × ℕ)) :
    (front ++ write y ++ "\n" ++ String.join (entries.map fun e =>
      m.exportName e.2 ++ " " ++ write e.1 ++ "\n")).toList =
    ((front.toList ++ (write y).toList) :: entries.map fun e => valueLine m e.2 e.1).flatMap
      fun l => l ++ ['\n'] := by
  have ending : "\n".toList = ['\n'] := rfl
  have blank : " ".toList = [' '] := rfl
  simp only [String.toList_append, String.toList_join, List.flatMap_cons, List.flatMap_map,
    valueLine, ending, blank, List.append_assoc, List.cons_append, List.nil_append]

theorem toList_text (m : Program α) (s : Solution α) : (text m s).toList =
    (objectiveLine s :: s.values.toList.zipIdx.map fun e => valueLine m e.2 e.1).flatMap
      fun l => l ++ ['\n'] :=
  toList_lines _ m s.objective s.values.toList.zipIdx

/-- The line that tells the objective is a comment. -/
theorem objectiveLine_eq (s : Solution α) :
    objectiveLine s = '#' :: " Objective value = ".toList ++ (write s.objective).toList :=
  congrArg (· ++ (write s.objective).toList) (by decide +kernel)

theorem lineFeed_notMem_objectiveLine (legible : Legible α) (s : Solution α) :
    '\n' ∉ objectiveLine s := by
  have front : '\n' ∉ "# Objective value = ".toList := by decide +kernel
  intro mem
  exact (List.mem_append.mp mem).elim front (legible s.objective).lineFeed_notMem

theorem isSkipped_objectiveLine (s : Solution α) : isSkipped (objectiveLine s) = true := by
  rw [objectiveLine_eq, List.cons_append, isSkipped, List.head?_cons, List.isEmpty_cons,
    Bool.false_or]
  exact beq_self_eq_true _

theorem trim_objectiveLine (legible : Legible α) (s : Solution α) :
    trim (objectiveLine s) = objectiveLine s := by
  have mark : IsField ['#'] := .of_check (by decide)
  rw [objectiveLine_eq]
  exact trim_eq_self mark (legible s.objective) _

section Line

variable {v : ℕ} (plain : IsPlain (m.exportName v)) (legible : Legible α) (x : α)

include plain legible

theorem trim_valueLine : trim (valueLine m v x) = valueLine m v x := by
  have split : valueLine m v x =
      (m.exportName v).toList ++ [' '] ++ (write x).toList := by
    rw [valueLine, List.append_assoc, List.singleton_append]
  rw [split]
  exact trim_eq_self plain.field (legible x) _

theorem lineFeed_notMem_valueLine : '\n' ∉ valueLine m v x := by
  rw [valueLine, List.mem_append, List.mem_cons, not_or, not_or]
  exact ⟨plain.field.lineFeed_notMem, by decide, (legible x).lineFeed_notMem⟩

omit legible in
theorem isSkipped_valueLine : isSkipped (valueLine m v x) = false := by
  rcases List.exists_cons_of_ne_nil plain.field.nonempty with ⟨c, cs, name⟩
  have other := plain.content
  rw [name, List.head?_cons] at other
  rw [valueLine, name, isSkipped, List.cons_append, List.head?_cons, List.isEmpty_cons,
    Bool.false_or]
  exact beq_eq_false_iff_ne.mpr other

theorem assignment_valueLine (reads : read? (write x).toList = some x) {i : ℕ}
    (meant : resolve? m (m.exportName v).toList = some i) (number : ℕ) :
    assignment m number (valueLine m v x) = .ok (i, x) := by
  rw [assignment, valueLine, fields_pair plain.field (legible x)]
  dsimp only
  rw [reads, meant]

end Line

/-! ## Reading the lines again -/

/-- The variable that the name of a variable means in a solution file. -/
def meaning (m : Program α) (v : ℕ) : ℕ := (resolve? m (m.exportName v).toList).getD v

section Reading

variable [Scalar α] (plain : ∀ v < m.vars.size, IsPlain (m.exportName v)) (legible : Legible α)
  (known : ∀ v < m.vars.size, (resolve? m (m.exportName v).toList).isSome = true)

include plain legible known

omit [Scalar α] in
private theorem assignments_lines {xs : List α} {n k : ℕ} (hn : n + xs.length ≤ m.vars.size)
    (reads : ∀ x ∈ xs, read? (write x).toList = some x) :
    ((((((xs.zipIdx n).map fun e => valueLine m e.2 e.1).map trim).zipIdx k).filter
      fun e => !isSkipped e.1).mapM fun e => assignment m e.2 e.1) =
      .ok ((xs.zipIdx n).map fun e => (meaning m e.2, e.1)) := by
  induction xs generalizing n k with
  | nil => rfl
  | cons x xs ih =>
    rcases List.forall_mem_cons.mp reads with ⟨own, others⟩
    rw [List.length_cons] at hn
    have hv : n < m.vars.size := by omega
    rcases Option.isSome_iff_exists.mp (known n hv) with ⟨i, meant⟩
    have line : assignment m k (valueLine m n x) = .ok (meaning m n, x) := by
      rw [assignment_valueLine (plain n hv) legible x own meant, meaning, meant, Option.getD_some]
    rw [List.zipIdx_cons, List.map_cons, List.map_cons, List.zipIdx_cons,
      trim_valueLine (plain n hv) legible x, List.filter_cons,
      isSkipped_valueLine (plain n hv) x, Bool.not_false, if_pos rfl, except_mapM_cons]
    exact ⟨_, _, line, ih (by omega) others, rfl⟩

omit [Scalar α] in
theorem assignments_text (size : s.values.size ≤ m.vars.size)
    (reads : ∀ x ∈ s.values, read? (write x).toList = some x) :
    assignments m (text m s) =
      .ok (s.values.toList.zipIdx.map fun e => (meaning m e.2, e.1)) := by
  have solid : ∀ l ∈ objectiveLine s :: s.values.toList.zipIdx.map fun e => valueLine m e.2 e.1,
      '\n' ∉ l := by
    refine List.forall_mem_cons.mpr ⟨lineFeed_notMem_objectiveLine legible s, fun l hl => ?_⟩
    rcases List.mem_map.mp hl with ⟨⟨x, v⟩, he, rfl⟩
    have hv : v < s.values.size := by
      simpa using (List.mem_zipIdx he).2.1
    exact lineFeed_notMem_valueLine (plain v (hv.trans_le size)) legible x
  unfold assignments
  rw [toList_text, lines_flatMap solid, List.map_cons, List.zipIdx_cons,
    trim_objectiveLine legible s]
  dsimp only
  rw [List.filter_cons, isSkipped_objectiveLine, Bool.not_true, if_neg Bool.false_ne_true]
  exact assignments_lines plain legible known (by simpa using size)
    fun x hx => reads x (Array.mem_toList_iff.mp hx)

/-- Every value goes to the variable that the name on its line means. -/
theorem ofText_text (size : s.values.size = m.vars.size)
    (reads : ∀ x ∈ s.values, read? (write x).toList = some x) :
    ∃ t, ofText m (text m s) = .ok t ∧
      t.values = placed (meaning m) s.values (.replicate m.vars.size 0) := by
  refine ⟨_, except_bind_eq_ok.mpr ⟨_, assignments_text plain legible known size.le reads,
    if_pos ?_⟩, rfl⟩
  exact (size_placed (meaning m) s.values _).trans Array.size_replicate

end Reading

end Solution

end Influence
