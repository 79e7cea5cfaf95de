import Mathlib.Data.Set.Card
import Influence.Proofs.PathIteration
import Influence.Proofs.Rows

/-!
# Row-major layout

A table finds an entry through the steps along its axes, finds a row by cutting the entries into
pieces, and finds the index of a number by repeated division.  What callers rely on is that these
are one layout, in which the entries stand in the lexicographic order of their indices, whatever the
number of axes (`Tensor.RowMajor`).

The number that all of them come down to is the rank, and it is the number of indices that are
before an index (`ncard_before`).  A table is laid out so if it has as many entries as its shape
requires, and only then (`Tensor.rowMajor_iff`).
-/

namespace Influence

/-! ## Indices and ranks -/

/-- The indices of a shape: one coordinate for every axis, below the size of the axis. -/
def indices (shape : List ℕ) : Set (List ℕ) := {q | List.Forall₂ (· < ·) q shape}

/-- The indices of a shape before a given one, in lexicographic order. -/
def before (shape index : List ℕ) : Set (List ℕ) := {q ∈ indices shape | q < index}

section Ranks

variable {shape index : List ℕ}

theorem mem_indices : index ∈ indices shape ↔ inRange shape index = true :=
  inRange_iff_forall₂.symm

theorem mem_toList_ofStates_iff : index ∈ (Paths.ofStates shape).toList ↔ index ∈ indices shape :=
  Paths.mem_toList_ofStates.trans mem_indices.symm

theorem pairwise_lt_toList_ofStates (shape : List ℕ) :
    (Paths.ofStates shape).toList.Pairwise (· < ·) := by
  rw [Paths.toList_ofStates]
  exact Paths.pairwise_lt_all _

/-- The rank of an index is the number of indices before it. -/
theorem ncard_before (h : index ∈ indices shape) :
    (before shape index).ncard = rank shape index := by
  obtain ⟨front, back, listed⟩ := List.append_of_mem (mem_toList_ofStates_iff.mpr h)
  have ascending : (front ++ index :: back).Pairwise (· < ·) :=
    listed ▸ pairwise_lt_toList_ofStates shape
  have nodup : (front ++ index :: back).Nodup := listed ▸ Paths.nodup_toList_ofStates shape
  have place : rank shape index = front.length := by
    apply Paths.rank_of_toList_ofStates_getElem?
    rw [listed, List.getElem?_append_right le_rfl, Nat.sub_self]
    rfl
  have below : before shape index = (front.toFinset : Set (List ℕ)) := by
    ext q
    rw [List.coe_toFinset, Set.mem_ofPred_eq, Paths.mem_front_iff ascending, ← listed,
      mem_toList_ofStates_iff]
    rfl
  rw [below, Set.ncard_coe_finset, List.toFinset_card_of_nodup nodup.of_append_left, place]

end Ranks

namespace Tensor

variable {α : Type} {t u : Tensor α} {index : List ℕ} {k : ℕ} {x : α}

/-! ## Access -/

theorem offset_eq_ok_iff : t.offset index = .ok k ↔
    inRange t.shape index = true ∧ t.position index = k := by
  unfold offset
  by_cases within : inRange t.shape index = true <;> simp [within]

theorem set_eq_ok_iff : t.set index x = .ok u ↔
    inRange t.shape index = true ∧ t.position index < t.data.size ∧
      { t with data := t.data.setIfInBounds (t.position index) x } = u := by
  unfold Tensor.set offset
  by_cases within : inRange t.shape index = true
  · rw [if_pos within]
    by_cases inside : t.position index < t.data.size
    · simp [bind, Except.bind, within, inside, Array.setIfInBounds]
    · simp [bind, Except.bind, inside]
  · simp [bind, Except.bind, within]

theorem get_eq_ok_iff : t.get index = .ok x ↔
    inRange t.shape index = true ∧ t.data[t.position index]? = some x := by
  unfold Tensor.get offset entry
  by_cases within : inRange t.shape index = true
  · cases t.data[t.position index]? <;> simp [bind, Except.bind, within]
  · simp [bind, Except.bind, within]

/-- Where the coordinates are in range, checking them makes no difference. -/
theorem get_eq_entry (within : inRange t.shape index = true) : t.get index = t.entry index := by
  unfold Tensor.get offset
  rw [if_pos within]
  rfl

/-- What is looked up depends on the shape and on the entry at the position only. -/
theorem get_congr (shape : u.shape = t.shape)
    (stored : inRange t.shape index = true → u.data[u.position index]? = t.data[t.position index]?) :
    u.get index = t.get index := by
  by_cases within : inRange t.shape index = true
  · rw [get_eq_entry within, get_eq_entry (shape ▸ within), entry, entry, stored within, shape]
  · unfold Tensor.get offset
    simp only [shape, if_neg within]
    rfl

/-! ## One layout -/

/-- What callers rely on in the layout of a table: however it is addressed, its entries stand in the
lexicographic order of their indices. -/
structure RowMajor (t : Tensor α) : Prop where
  /-- The indices of the shape have an offset, and nothing else has. -/
  offset_isOk : ∀ index, (∃ k, t.offset index = .ok k) ↔ index ∈ indices t.shape
  /-- The offset is the rank in lexicographic order, and there is an entry of that number. -/
  offset_rank : ∀ index k, t.offset index = .ok k →
    k = (before t.shape index).ncard ∧ k < t.size
  /-- No two indices share an offset. -/
  offset_injective : ∀ index index' k, t.offset index = .ok k → t.offset index' = .ok k →
    index = index'
  /-- Division gives back the index that an offset was computed from. -/
  unravel_offset : ∀ index k, t.offset index = .ok k → unravel k t.shape = index
  /-- The number of an entry is the offset of the index that division gives for it. -/
  offset_unravel : ∀ k < t.size, t.offset (unravel k t.shape) = .ok k
  /-- The entry at the offset is read, with and without a check of the coordinates. -/
  read : ∀ index k, t.offset index = .ok k →
    ∃ x, t.data[k]? = some x ∧ t.get index = .ok x ∧ t.entry index = .ok x
  /-- An entry that is replaced has the new value, and every other look-up is as before. -/
  replaced : ∀ index ∈ indices t.shape, ∀ x, ∃ u, t.set index x = .ok u ∧
    u.get index = .ok x ∧ ∀ other ≠ index, u.get other = t.get other
  /-- There is one row for each index of the other axes, in lexicographic order, and it lists the
  entries along the last axis. -/
  rows : ∀ dims n, t.shape = dims ++ [n] → 0 < n →
    (t.rows.map Prod.fst).Pairwise (· < ·) ∧ (∀ q, q ∈ t.rows.map Prod.fst ↔ q ∈ indices dims) ∧
      ∀ q row, (q, row) ∈ t.rows →
        List.Forall₂ (fun j x => t.get (q ++ [j]) = .ok x) (List.range n) row
  /-- A table without axes is one row of one entry. -/
  rows_scalar : t.shape = [] → ∃ x, t.get [] = .ok x ∧ t.rows = [([], [x])]

/-- A table with as many entries as its shape requires, where a word can count them. -/
structure Sized (t : Tensor α) : Prop where
  size : t.data.size = t.shape.prod
  fits : t.shape.prod < Word.count64

theorem Sized.rank_lt (h : t.Sized) (within : inRange t.shape index = true) :
    rank t.shape index < t.data.size := by
  rw [h.size]
  exact rank_lt_prod within

theorem Sized.position_eq (h : t.Sized) (within : inRange t.shape index = true) :
    t.position index = rank t.shape index :=
  dot_strides_of_lt h.fits within

theorem Sized.offset_eq_ok_iff (h : t.Sized) : t.offset index = .ok k ↔
    index ∈ indices t.shape ∧ rank t.shape index = k := by
  rw [Tensor.offset_eq_ok_iff, mem_indices]
  exact and_congr_right fun within => by rw [h.position_eq within]

/-- Every index has an entry, and both ways to read find it. -/
theorem Sized.exists_read (h : t.Sized) (within : inRange t.shape index = true) :
    ∃ x, t.data[rank t.shape index]? = some x ∧ t.get index = .ok x ∧ t.entry index = .ok x := by
  have inside := h.rank_lt within
  have stored : t.data[rank t.shape index]? = some t.data[rank t.shape index] :=
    Array.getElem?_eq_getElem inside
  have read : t.get index = .ok t.data[rank t.shape index] :=
    get_eq_ok_iff.mpr ⟨within, by rw [h.position_eq within, stored]⟩
  exact ⟨_, stored, read, (get_eq_entry within).symm.trans read⟩

/-- The entry of an index can be replaced, and no other look-up sees it. -/
theorem Sized.exists_set (h : t.Sized) (within : inRange t.shape index = true) (x : α) :
    ∃ u, t.set index x = .ok u ∧ u.get index = .ok x ∧
      ∀ other ≠ index, u.get other = t.get other := by
  have position := h.position_eq within
  have inside : t.position index < t.data.size := position ▸ h.rank_lt within
  refine ⟨_, set_eq_ok_iff.mpr ⟨within, inside, rfl⟩, get_eq_ok_iff.mpr ⟨within, ?_⟩, ?_⟩
  · exact Array.getElem?_setIfInBounds_self_of_lt inside
  · intro other apart
    refine get_congr rfl fun within' => Array.getElem?_setIfInBounds_ne fun same => apart ?_
    change t.position index = t.position other at same
    rw [position, h.position_eq within'] at same
    exact (rank_inj within within' same).symm

/-- The rows along the last axis are those of the other axes' indices, with the entries that looking
them up gives. -/
theorem Sized.rows_spec (h : t.Sized) {dims : List ℕ} {n : ℕ} (shape : t.shape = dims ++ [n])
    (pos : 0 < n) :
    t.rows.map Prod.fst = (Paths.ofStates dims).toList ∧ ∀ q row, (q, row) ∈ t.rows →
      List.Forall₂ (fun j x => t.get (q ++ [j]) = .ok x) (List.range n) row := by
  have counted : t.Counted := h.size.trans (entryCount_of_lt h.fits).symm
  rw [rows_eq shape pos h.size]
  constructor
  · rw [List.map_map]
    exact List.map_id _
  · intro q row hrow
    obtain ⟨q', hq, same⟩ := List.mem_map.mp hrow
    obtain ⟨rfl, rfl⟩ := Prod.mk.inj same
    have within := Paths.mem_toList_ofStates.mp hq
    obtain ⟨length, entries⟩ := List.forall₂_iff_get.mp
      (except_mapM_eq_ok_iff.mp (counted.row_eq_ok h.fits shape within))
    refine List.forall₂_iff_get.mpr ⟨length, fun j hj hj' => ?_⟩
    have below : (List.range n).get ⟨j, hj⟩ < n := List.mem_range.mp (List.get_mem ..)
    rw [get_eq_entry (shape ▸ inRange_concat within below)]
    exact entries j hj hj'

/-- A table without axes has one entry, which is its only row. -/
theorem Sized.rows_scalar (h : t.Sized) (shape : t.shape = []) :
    ∃ x, t.get [] = .ok x ∧ t.rows = [([], [x])] := by
  obtain ⟨dims, data⟩ := t
  obtain rfl : dims = [] := shape
  obtain ⟨x, rfl⟩ : ∃ x, data = #[x] := Array.size_eq_one_iff.mp h.size
  have pieces : Text.pieces 1 [x] = [[x]] := pieces_eq Nat.one_pos (rfl : [x].length = 1 * 1)
  refine ⟨x, rfl, ?_⟩
  change (Text.pieces 1 [x]).zipIdx.map _ = _
  rw [pieces]
  rfl

/-- A table in row-major order has no more entries and no less than its shape requires. -/
theorem RowMajor.size_eq (layout : t.RowMajor) : t.size = t.shape.prod := by
  refine le_antisymm ?_ ?_
  · -- An entry past the last index would have an offset that is too large for a rank.
    by_contra more
    have offset := layout.offset_unravel t.shape.prod (not_le.mp more)
    have member := (layout.offset_isOk _).mp ⟨_, offset⟩
    have number := (layout.offset_rank _ _ offset).1
    rw [ncard_before member] at number
    exact (rank_lt_prod (mem_indices.mp member)).ne number.symm
  · -- The first index without an entry would have an offset all the same.
    by_contra less
    obtain ⟨within, number⟩ := unravel_spec (not_le.mp less)
    obtain ⟨k, offset⟩ := (layout.offset_isOk _).mpr (mem_indices.mpr within)
    obtain ⟨same, inside⟩ := layout.offset_rank _ _ offset
    rw [ncard_before (mem_indices.mpr within), number] at same
    exact inside.ne same

/-- A table is laid out in row-major order if it has as many entries as its shape requires, and only
then.  Entries are counted by machine words, and then so are the steps along the axes of a shape
that has any index. -/
theorem rowMajor_iff (counted : t.size < Word.count64) : t.RowMajor ↔ t.size = t.shape.prod := by
  refine ⟨RowMajor.size_eq, fun full => ?_⟩
  have sized : t.Sized := ⟨full, full ▸ counted⟩
  have offset {index : List ℕ} {k : ℕ} : t.offset index = .ok k ↔
      index ∈ indices t.shape ∧ rank t.shape index = k := sized.offset_eq_ok_iff
  constructor
  case offset_isOk => simp [offset]
  case offset_rank =>
    intro index k at_k
    obtain ⟨member, rfl⟩ := offset.mp at_k
    exact ⟨(ncard_before member).symm, sized.rank_lt (mem_indices.mp member)⟩
  case offset_injective =>
    intro index index' k at_k at_k'
    obtain ⟨member, number⟩ := offset.mp at_k
    obtain ⟨member', number'⟩ := offset.mp at_k'
    exact rank_inj (mem_indices.mp member) (mem_indices.mp member') (number.trans number'.symm)
  case unravel_offset =>
    intro index k at_k
    obtain ⟨member, rfl⟩ := offset.mp at_k
    exact unravel_rank (mem_indices.mp member)
  case offset_unravel =>
    intro k inside
    obtain ⟨within, number⟩ := unravel_spec (full ▸ inside)
    exact offset.mpr ⟨mem_indices.mpr within, number⟩
  case read =>
    intro index k at_k
    obtain ⟨member, rfl⟩ := offset.mp at_k
    exact sized.exists_read (mem_indices.mp member)
  case replaced =>
    exact fun index member x => sized.exists_set (mem_indices.mp member) x
  case rows =>
    intro dims n shape pos
    obtain ⟨leading, entries⟩ := sized.rows_spec shape pos
    rw [leading]
    exact ⟨pairwise_lt_toList_ofStates dims, fun q => mem_toList_ofStates_iff, entries⟩
  case rows_scalar => exact sized.rows_scalar

/-- Fares by season, zone and age. -/
def fares : Tensor ℕ := ⟨[2, 3, 2], #[4, 2, 6, 3, 9, 5, 5, 3, 7, 4, 11, 6]⟩

/-- The fares are laid out in row-major order, so that nine indices are before that of a child's
fare for the second zone in the second season. -/
theorem rowMajor_iff_fares : fares.size < Word.count64 ∧ fares.RowMajor ∧
    fares.get [1, 1, 1] = .ok 4 ∧ (before fares.shape [1, 1, 1]).ncard = 9 := by
  have counted : fares.size < Word.count64 := by decide
  have layout : fares.RowMajor := (rowMajor_iff counted).mpr (by decide)
  exact ⟨counted, layout, rfl, (layout.offset_rank [1, 1, 1] 9 rfl).1.symm⟩

end Tensor

end Influence
