import Influence.Proofs.RowMajor

/-!
# Sizes of tables

The size of a table is checked with a product of machine words.  A shape that requires more entries
than a word can count is compared by what is left of that number, so a table may be taken whose
entries are fewer than its indices (`WrapsTo`).  There is no other way for the check to go wrong
(`Tensor.ofData_exact_iff`).

Such a table cannot be read at all of its indices: the ranks run through all words, the last of which
is never the position of an entry (`Tensor.Counted.readable_iff`).
-/

namespace Influence

namespace Tensor

variable {α : Type} {t : Tensor α} {shape index : List ℕ} {data : Array α}

/-! ## The check -/

/-- Data is taken for a shape if it is as much as is left of the number of entries. -/
theorem ofData_eq (shape : List ℕ) (data : Array α) : ofData shape data =
    if shape.prod % Word.count64 = data.size then .ok ⟨shape, data⟩
    else .error (.tensorSize (shape.prod % Word.count64) data.size) := by
  rw [ofData, entryCount_eq]

theorem ofData_eq_ok_iff : ofData shape data = .ok t ↔
    shape.prod % Word.count64 = data.size ∧ ⟨shape, data⟩ = t := by
  rw [ofData_eq]
  by_cases left : shape.prod % Word.count64 = data.size <;> simp [left]

theorem exists_ofData_iff :
    (∃ t, ofData shape data = .ok t) ↔ shape.prod % Word.count64 = data.size := by
  simp [ofData_eq_ok_iff]

/-! ## Look-ups -/

/-- A table can be read at all of its indices if a word can count them, and only then. -/
theorem Counted.readable_iff (h : t.Counted) :
    (∀ index ∈ indices t.shape, t.Readable index) ↔ t.shape.prod < Word.count64 := by
  constructor
  · intro readable
    by_contra large
    have words : 0 < Word.count64 := by decide
    -- The index whose rank is the last word.
    obtain ⟨within, number⟩ : inRange t.shape (unravel (Word.count64 - 1) t.shape) = true ∧ _ :=
      unravel_spec (by omega)
    have inside := (readable _ (mem_indices.mpr within)).position
    rw [position, dot_strides (length_of_inRange within), number, h, entryCount_eq,
      Nat.mod_eq_of_lt (Nat.sub_lt words Nat.one_pos)] at inside
    have left := Nat.mod_lt t.shape.prod words
    omega
  · exact fun fits index member => h.readable fits (mem_indices.mp member)

end Tensor

end Influence
