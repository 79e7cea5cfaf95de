import Mathlib.Algebra.BigOperators.Group.List.Basic
import Mathlib.Data.List.Forall2
import Mathlib.Tactic.Ring
import Influence.Diagram.Tensor

/-!
# Positions of indices

`rank` is the position of an index among all indices of a shape, first coordinate slowest.
It is computed in unbounded numbers; the word arithmetic of `dot` and `entryCount` agrees
with it modulo the word size (`dot_strides`, `entryCount_eq`), hence exactly whenever the
entries of the shape can be counted by a word.
-/

namespace Influence

/-! ## Indices in range -/

theorem inRange_iff_forall₂ {shape index : List ℕ} :
    inRange shape index = true ↔ List.Forall₂ (· < ·) index shape := by
  induction index generalizing shape with
  | nil => cases shape <;> simp [inRange]
  | cons i index ih =>
    cases shape with
    | nil => simp [inRange]
    | cons n shape =>
      have step : inRange (n :: shape) (i :: index) = true ↔
          i < n ∧ inRange shape index = true := by
        simp only [inRange, List.length_cons, List.zip_cons_cons, List.all_cons,
          Bool.and_eq_true, beq_iff_eq, decide_eq_true_eq, Nat.add_right_cancel_iff]
        exact ⟨fun ⟨hl, hi, hs⟩ => ⟨hi, hl, hs⟩, fun ⟨hi, hl, hs⟩ => ⟨hl, hi, hs⟩⟩
      rw [step, ih, List.forall₂_cons]

theorem inRange_cons {n i : ℕ} {shape index : List ℕ} :
    inRange (n :: shape) (i :: index) = true ↔ i < n ∧ inRange shape index = true := by
  rw [inRange_iff_forall₂, inRange_iff_forall₂, List.forall₂_cons]

theorem length_of_inRange {shape index : List ℕ} (h : inRange shape index = true) :
    index.length = shape.length :=
  (inRange_iff_forall₂.mp h).length_eq

/-- Being in range, coordinate by coordinate. -/
theorem inRange_iff_getD {shape index : List ℕ} :
    inRange shape index = true ↔
      index.length = shape.length ∧
        ∀ i, i < shape.length → index.getD i 0 < shape.getD i 0 := by
  rw [inRange_iff_forall₂, List.forall₂_iff_get]
  refine and_congr_right fun hl => ⟨fun h i hi => ?_, fun h i h₁ h₂ => ?_⟩
  · have := h i (hl ▸ hi) hi
    simpa [List.getD_eq_getElem?_getD, hi, hl ▸ hi] using this
  · have := h i h₂
    simpa [List.getD_eq_getElem?_getD, h₁, h₂] using this

theorem getD_lt_of_inRange {shape index : List ℕ} (h : inRange shape index = true) {i : ℕ}
    (hi : i < shape.length) : index.getD i 0 < shape.getD i 0 :=
  (inRange_iff_getD.mp h).2 i hi

theorem inRange_set {shape index : List ℕ} (h : inRange shape index = true) {i k : ℕ}
    (hk : k < shape.getD i 0) : inRange shape (index.set i k) = true := by
  obtain ⟨length, small⟩ := inRange_iff_getD.mp h
  refine inRange_iff_getD.mpr ⟨List.length_set.trans length, fun j hj => ?_⟩
  rw [List.getD_eq_getElem?_getD, List.getElem?_set]
  split
  case isTrue same =>
    subst same
    rwa [if_pos (length.symm ▸ hj)]
  case isFalse =>
    rw [← List.getD_eq_getElem?_getD]
    exact small j hj

theorem inRange_concat {shape index : List ℕ} (h : inRange shape index = true) {n i : ℕ}
    (hi : i < n) : inRange (shape ++ [n]) (index ++ [i]) = true := by
  rw [inRange_iff_forall₂] at h ⊢
  exact List.rel_append h (.cons hi .nil)

/-- An index of one more axis is an index and a last coordinate. -/
theorem exists_of_inRange_concat {shape index : List ℕ} {n : ℕ}
    (h : inRange (shape ++ [n]) index = true) :
    ∃ q i, inRange shape q = true ∧ i < n ∧ index = q ++ [i] := by
  have related := inRange_iff_forall₂.mp h
  have last := List.forall₂_drop_append index shape [n] related
  obtain ⟨i, rest, small, none, dropped⟩ := List.forall₂_cons_right_iff.mp last
  refine ⟨index.take shape.length, i,
    inRange_iff_forall₂.mpr (List.forall₂_take_append index shape [n] related), small, ?_⟩
  rw [← List.forall₂_nil_right_iff.mp none, ← dropped, List.take_append_drop]

/-- The coordinates of an index in range at some positions are in range there. -/
theorem inRange_map_getD {shape index : List ℕ} (h : inRange shape index = true)
    (positions : List ℕ) (hp : ∀ i ∈ positions, i < shape.length) :
    inRange (positions.map fun i => shape.getD i 0)
      (positions.map fun i => index.getD i 0) = true := by
  rw [inRange_iff_forall₂, List.forall₂_map_left_iff, List.forall₂_map_right_iff,
    List.forall₂_same]
  exact fun i hi => getD_lt_of_inRange h (hp i hi)

/-! ## Ranks -/

/-- The number of indices of a shape before a given one, in lexicographic order. -/
def rank : List ℕ → List ℕ → ℕ
  | _ :: dims, i :: index => i * dims.prod + rank dims index
  | _, _ => 0

@[simp] theorem rank_nil (index : List ℕ) : rank [] index = 0 := rfl

@[simp] theorem rank_cons (n i : ℕ) (dims index : List ℕ) :
    rank (n :: dims) (i :: index) = i * dims.prod + rank dims index := rfl

theorem rank_lt_prod {shape index : List ℕ} (h : inRange shape index = true) :
    rank shape index < shape.prod := by
  rw [inRange_iff_forall₂] at h
  induction h with
  | nil => simp
  | @cons i n index dims hi _ ih =>
    rw [rank_cons, List.prod_cons]
    calc
      i * dims.prod + rank dims index < i * dims.prod + dims.prod := Nat.add_lt_add_left ih _
      _ = (i + 1) * dims.prod := by ring
      _ ≤ n * dims.prod := Nat.mul_le_mul_right _ hi

/-- An index with one more coordinate, the fastest one. -/
theorem rank_concat {dims index : List ℕ} (h : index.length = dims.length) (n i : ℕ) :
    rank (dims ++ [n]) (index ++ [i]) = rank dims index * n + i := by
  induction dims generalizing index with
  | nil =>
    rw [List.length_nil, List.length_eq_zero_iff] at h
    subst h
    simp
  | cons m dims ih =>
    cases index with
    | nil => cases h
    | cons k index =>
      rw [List.cons_append, List.cons_append, rank_cons, rank_cons, ih (Nat.succ.inj h),
        List.prod_append, List.prod_singleton]
      ring

/-! ## Blocks of one length

A list of rows of one width, written one after the other, has entry `j` of row `i` at
`i * width + j`. -/

section Blocks

variable {β : Type}

theorem flatten_getElem?_block {rows : List (List β)} {width : ℕ}
    (hw : ∀ row ∈ rows, row.length = width) (i : ℕ) {j : ℕ} (hj : j < width) :
    rows.flatten[i * width + j]? = rows[i]?.bind (·[j]?) := by
  induction rows generalizing i with
  | nil => simp
  | cons row rows ih =>
    have hrow : row.length = width := hw row List.mem_cons_self
    rw [List.flatten_cons]
    cases i with
    | zero =>
      rw [Nat.zero_mul, Nat.zero_add, List.getElem?_append_left (hrow ▸ hj)]
      rfl
    | succ i =>
      have past : row.length ≤ (i + 1) * width + j := by
        rw [hrow, Nat.succ_mul]
        omega
      have rest : (i + 1) * width + j - row.length = i * width + j := by
        rw [hrow, Nat.succ_mul]
        omega
      rw [List.getElem?_append_right past, rest,
        ih (fun r hr => hw r (List.mem_cons_of_mem _ hr)), List.getElem?_cons_succ]

theorem flatten_drop_take_block {rows : List (List β)} {width : ℕ}
    (hw : ∀ row ∈ rows, row.length = width) {i : ℕ} (hi : i < rows.length) :
    (rows.flatten.drop (i * width)).take width = rows[i] := by
  induction rows generalizing i with
  | nil => cases hi
  | cons row rows ih =>
    have hrow : row.length = width := hw row List.mem_cons_self
    rw [List.flatten_cons]
    cases i with
    | zero =>
      rw [Nat.zero_mul, List.drop_zero, List.take_left' hrow]
      rfl
    | succ i =>
      have rest : (i + 1) * width = row.length + i * width := by
        rw [hrow, Nat.succ_mul, Nat.add_comm]
      rw [rest, List.drop_length_add_append,
        ih (fun r hr => hw r (List.mem_cons_of_mem _ hr)) (Nat.lt_of_succ_lt_succ hi)]
      rfl

/-- A list cut into pieces of one width. -/
theorem flatten_map_drop_take {xs : List β} {width n : ℕ} (h : xs.length = n * width) :
    ((List.range n).map fun k => (xs.drop (k * width)).take width).flatten = xs := by
  induction n generalizing xs with
  | zero =>
    rw [Nat.zero_mul, List.length_eq_zero_iff] at h
    subst h
    rfl
  | succ n ih =>
    have rest : (xs.drop width).length = n * width := by
      rw [List.length_drop, h, Nat.succ_mul, Nat.add_sub_cancel]
    have later (k : ℕ) : xs.drop ((k + 1) * width) = (xs.drop width).drop (k * width) := by
      rw [List.drop_drop, Nat.succ_mul, Nat.add_comm]
    rw [List.range_succ_eq_map, List.map_cons, List.map_map, List.flatten_cons, Nat.zero_mul,
      List.drop_zero]
    change xs.take width ++
      ((List.range n).map fun k => (xs.drop ((k + 1) * width)).take width).flatten = xs
    simp only [later]
    rw [ih rest, List.take_append_drop]

end Blocks

/-! ## Word arithmetic -/

theorem word_lt (n : ℕ) : word n < Word.count64 := Nat.mod_lt n (by decide)

theorem word_of_lt {n : ℕ} (h : n < Word.count64) : word n = n := Nat.mod_eq_of_lt h

private theorem foldl_word_mul (a : ℕ) (shape : List ℕ) (ha : a < Word.count64) :
    shape.foldl (fun n dim => word (n * dim)) a = a * shape.prod % Word.count64 := by
  induction shape generalizing a with
  | nil => simp [Nat.mod_eq_of_lt ha]
  | cons dim shape ih =>
    rw [List.foldl_cons, ih _ (word_lt _), word, Nat.mod_mul_mod,
      List.prod_cons, Nat.mul_assoc]

theorem entryCount_eq (shape : List ℕ) : entryCount shape = shape.prod % Word.count64 := by
  rw [entryCount, foldl_word_mul 1 shape (by decide), Nat.one_mul]

theorem entryCount_of_lt {shape : List ℕ} (h : shape.prod < Word.count64) :
    entryCount shape = shape.prod := by
  rw [entryCount_eq, Nat.mod_eq_of_lt h]

private theorem foldl_word_add (a : ℕ) (ks : List ℕ) (ha : a < Word.count64) :
    ks.foldl (fun n k => word (n + k)) a = (a + ks.sum) % Word.count64 := by
  induction ks generalizing a with
  | nil => simp [Nat.mod_eq_of_lt ha]
  | cons k ks ih =>
    rw [List.foldl_cons, ih _ (word_lt _), word, Nat.mod_add_mod,
      List.sum_cons, Nat.add_assoc]

theorem dot_cons (s i : ℕ) (ss index : List ℕ) :
    dot (s :: ss) (i :: index) = (word (i * s) + dot ss index) % Word.count64 := by
  simp only [dot, List.zipWith_cons_cons, foldl_word_add 0 _ (by decide : 0 < Word.count64),
    List.sum_cons, Nat.zero_add, Nat.add_mod_mod]

/-- The word position of an index is its rank, up to whole turns of the word. -/
theorem dot_strides {shape index : List ℕ} (h : index.length = shape.length) :
    dot (strides shape) index = rank shape index % Word.count64 := by
  induction shape generalizing index with
  | nil =>
    rw [List.length_nil, List.length_eq_zero_iff] at h
    subst h
    rfl
  | cons n dims ih =>
    cases index with
    | nil => cases h
    | cons i index =>
      rw [strides, dot_cons, ih (Nat.succ.inj h), word, entryCount_eq, rank_cons,
        Nat.mul_mod_mod, ← Nat.add_mod]

theorem dot_strides_of_lt {shape index : List ℕ} (hs : shape.prod < Word.count64)
    (h : inRange shape index = true) : dot (strides shape) index = rank shape index := by
  rw [dot_strides (length_of_inRange h), Nat.mod_eq_of_lt ((rank_lt_prod h).trans hs)]

end Influence
