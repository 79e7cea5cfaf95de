import Mathlib.Algebra.BigOperators.Ring.List
import Influence.Proofs.MadeTables
import Influence.Proofs.Paths

/-!
# Rows of tables

A table is read in two ways.  Looking up an entry goes through the strides of the shape; a check of
whole rows cuts the entries into pieces of the length of the last axis and finds the index of a
piece from its number.  Both see the same rows: numbers and indices correspond
(`Paths.toList_eq_map_unravel`), so the rows are those of the indices of the other axes, in
lexicographic order, each with the entries that looking them up gives (`Tensor.Counted.rows_eq`).
-/

namespace Influence

/-! ## Numbers and indices -/

/-- The axes that are dealt with leave the quotient to the others. -/
theorem unravel_go (position : ℕ) {dims : List ℕ} (pos : ∀ n ∈ dims, 0 < n) :
    inRange dims (unravel.go position dims).1 = true ∧
      rank dims (unravel.go position dims).1 = position % dims.prod ∧
      (unravel.go position dims).2 = position / dims.prod := by
  induction dims with
  | nil => exact ⟨rfl, (Nat.mod_one position).symm, (Nat.div_one position).symm⟩
  | cons n dims ih =>
    obtain ⟨first, others⟩ := List.forall_mem_cons.mp pos
    obtain ⟨within, index, rest⟩ := ih others
    rw [unravel.go]
    dsimp only
    rw [if_neg first.ne', rest]
    refine ⟨inRange_cons.mpr ⟨Nat.mod_lt _ first, within⟩, ?_, ?_⟩
    · rw [rank_cons, index, List.prod_cons, Nat.mul_comm n, Nat.mod_mul, Nat.add_comm,
        Nat.mul_comm dims.prod]
    · rw [Nat.div_div_eq_div_mul, List.prod_cons, Nat.mul_comm n]

section Unravel

variable {dims : List ℕ} {k : ℕ}

/-- The index of a number that is among those of the shape. -/
theorem unravel_spec (h : k < dims.prod) :
    inRange dims (unravel k dims) = true ∧ rank dims (unravel k dims) = k := by
  have pos : ∀ n ∈ dims, 0 < n := fun n hn =>
    Nat.pos_of_ne_zero fun zero => (Nat.zero_le k).not_gt (List.prod_eq_zero (zero ▸ hn) ▸ h)
  obtain ⟨within, index, -⟩ := unravel_go k pos
  exact ⟨within, index.trans (Nat.mod_eq_of_lt h)⟩

theorem rank_inj {index index' : List ℕ} (h : inRange dims index = true)
    (h' : inRange dims index' = true) (same : rank dims index = rank dims index') :
    index = index' := by
  have listed := Paths.all_getElem?_rank h
  rw [same, Paths.all_getElem?_rank h'] at listed
  exact (Option.some.inj listed).symm

/-- An index is the one that belongs to its number. -/
theorem unravel_rank {index : List ℕ} (h : inRange dims index = true) :
    unravel (rank dims index) dims = index := by
  obtain ⟨within, number⟩ := unravel_spec (rank_lt_prod h)
  exact rank_inj within h number

/-- The indices of the numbers, in order, are all indices in lexicographic order. -/
theorem Paths.toList_eq_map_unravel (dims : List ℕ) :
    (Paths.ofStates dims).toList = (List.range dims.prod).map (unravel · dims) := by
  refine List.ext_getElem? fun k => ?_
  by_cases h : k < dims.prod
  · obtain ⟨within, number⟩ := unravel_spec h
    have listed := toList_ofStates_getElem?_rank within
    rw [number] at listed
    rw [listed, List.getElem?_map, List.getElem?_range h, Option.map_some]
  · rw [List.getElem?_eq_none (by rw [length_toList_ofStates]; exact Nat.le_of_not_lt h),
      List.getElem?_eq_none (by rw [List.length_map, List.length_range]; exact Nat.le_of_not_lt h)]

end Unravel

/-! ## Pieces -/

/-- A list of whole pieces. -/
theorem pieces_eq {β : Type} {width m : ℕ} (pos : 0 < width) {xs : List β}
    (length : xs.length = m * width) :
    Text.pieces width xs = (List.range m).map fun k => (xs.drop (k * width)).take width := by
  induction m generalizing xs with
  | zero =>
    rw [Nat.zero_mul, List.length_eq_zero_iff] at length
    rw [length, Text.pieces, List.range_zero, List.map_nil]
  | succ m ih =>
    rw [Nat.succ_mul] at length
    cases xs with
    | nil =>
      rw [List.length_nil] at length
      omega
    | cons x xs =>
      rw [List.length_cons] at length
      have later (k : ℕ) : (x :: xs).drop ((k + 1) * width) =
          (xs.drop (width - 1)).drop (k * width) := by
        have past : (k + 1) * width = width - 1 + k * width + 1 := by
          rw [Nat.succ_mul]
          omega
        rw [past, List.drop_succ_cons, List.drop_drop]
      have first : (x :: xs).take width = x :: xs.take (width - 1) := by
        rw [← Nat.sub_add_cancel pos, List.take_succ_cons, Nat.add_sub_cancel]
      rw [Text.pieces, ih (by rw [List.length_drop]; omega), List.range_succ_eq_map, List.map_cons,
        List.map_map, Nat.zero_mul, List.drop_zero, first]
      refine congrArg _ (List.map_congr_left fun k _ => ?_)
      rw [Function.comp_apply, Nat.succ_eq_add_one, later]

/-! ## Rows -/

namespace Tensor

variable {α : Type} {t : Tensor α} {dims : List ℕ} {n : ℕ}

/-- The rows of a table are those of the indices of all axes but the last one. -/
theorem rows_eq (shape : t.shape = dims ++ [n]) (pos : 0 < n)
    (size : t.data.size = t.shape.prod) :
    t.rows = (Paths.ofStates dims).toList.map fun q => (q, t.block n (rank dims q)) := by
  have length : t.data.toList.length = dims.prod * n := by
    rw [Array.length_toList, size, shape, List.prod_append, List.prod_singleton]
  have width : t.rowWidth = n := by
    rw [rowWidth, shape, List.getLast?_concat, Option.getD_some]
    exact Nat.max_eq_left pos
  rw [rows, width, shape, List.dropLast_concat, pieces_eq pos length, Paths.toList_eq_map_unravel,
    List.map_map, List.zipIdx_map, List.map_map]
  refine List.ext_getElem? fun k => ?_
  rw [List.getElem?_map, List.getElem?_map, List.getElem?_zipIdx]
  by_cases h : k < dims.prod
  · rw [List.getElem?_range h]
    simp [block, (unravel_spec h).2]
  · rw [List.getElem?_eq_none (by rw [List.length_range]; exact Nat.le_of_not_lt h)]
    rfl

/-- The entries along the last axis are there, and they are one of the rows. -/
theorem Counted.exists_row (h : t.Counted) (fits : t.shape.prod < Word.count64)
    (shape : t.shape = dims ++ [n]) (pos : 0 < n) {q : List ℕ}
    (hq : Influence.inRange dims q = true) :
    ∃ xs, (List.range n).mapM (fun s => t.entry (q ++ [s])) = .ok xs ∧ ∃ k, (k, xs) ∈ t.rows := by
  refine ⟨_, h.row_eq_ok fits shape hq, q, ?_⟩
  rw [rows_eq shape pos (h.size_eq fits)]
  exact List.mem_map_of_mem (f := fun q => (q, t.block n (rank dims q)))
    (Paths.mem_toList_ofStates.mpr hq)

end Tensor

end Influence
