import Influence.Diagram.Tables
import Influence.Proofs.Position
import Influence.Proofs.Success

/-!
# Tables that can be made

A tensor stores as many entries as its shape counts (`Tensor.Counted`).  Nothing in the type
says so, but whatever makes a tensor checks it or arranges it: `Tensor.Made` and
`StateMatrix.Made` list the ways to a table, and each of them leads to a counted one
(`Tensor.Made.counted`, `TableSource.Made.counted`).

In a counted tensor whose entries a word can count, an index in range has its entry
(`Tensor.Counted.readable`), and the entries along the last axis are next to each other
(`Tensor.Counted.row_eq_ok`).
-/

namespace Influence

variable {α : Type}

namespace Tensor

/-- As many entries as the shape requires, counted by words. -/
def Counted (t : Tensor α) : Prop := t.data.size = entryCount t.shape

/-- The tables that a program can make. -/
inductive Made : Tensor α → Prop
  | ofData {shape : List ℕ} {data : Array α} {t : Tensor α} (run : ofData shape data = .ok t) :
      Made t
  | filled (shape : List ℕ) (x : α) : Made (.filled shape x)
  | set {t u : Tensor α} {index : List ℕ} {x : α} (made : Made t) (run : t.set index x = .ok u) :
      Made u

theorem counted_of_ofData {shape : List ℕ} {data : Array α} {t : Tensor α}
    (run : ofData shape data = .ok t) : t.Counted := by
  unfold ofData at run
  split at run
  case isTrue size =>
    cases run
    exact size.symm
  case isFalse => cases run

theorem counted_filled (shape : List ℕ) (x : α) : (filled shape x).Counted :=
  Array.size_replicate

/-- Replacing an entry keeps the shape and the number of entries. -/
theorem Counted.set {t u : Tensor α} (h : t.Counted) {index : List ℕ} {x : α}
    (run : t.set index x = .ok u) : u.Counted := by
  unfold Tensor.set at run
  rcases except_bind_eq_ok.mp run with ⟨k, -, run⟩
  split at run
  case isTrue inside =>
    cases run
    exact (Array.size_set inside).trans h
  case isFalse => cases run

theorem Made.counted {t : Tensor α} (h : t.Made) : t.Counted := by
  induction h with
  | ofData run => exact counted_of_ofData run
  | filled shape x => exact counted_filled shape x
  | set _ run counted => exact counted.set run

/-- An index that is in range and whose position has an entry. -/
structure Readable (t : Tensor α) (index : List ℕ) : Prop where
  inRange : inRange t.shape index = true
  position : t.position index < t.data.size

theorem Readable.exists_entry {t : Tensor α} {index : List ℕ} (h : t.Readable index) :
    ∃ x, t.entry index = .ok x := by
  have inside := h.position
  exact ⟨t.data[t.position index], by rw [entry, Array.getElem?_eq_getElem inside]⟩

theorem position_lt_of_entry {t : Tensor α} {index : List ℕ} {x : α} (h : t.entry index = .ok x) :
    t.position index < t.data.size := by
  unfold entry at h
  split at h
  case h_1 stored => exact (Array.getElem?_eq_some_iff.mp stored).1
  case h_2 => cases h

theorem Counted.size_eq {t : Tensor α} (h : t.Counted) (fits : t.shape.prod < Word.count64) :
    t.data.size = t.shape.prod := by
  rw [h, entryCount_of_lt fits]

theorem Counted.readable {t : Tensor α} (h : t.Counted) (fits : t.shape.prod < Word.count64)
    {index : List ℕ} (within : Influence.inRange t.shape index = true) : t.Readable index := by
  refine ⟨within, ?_⟩
  rw [h.size_eq fits, position, dot_strides_of_lt fits within]
  exact rank_lt_prod within

/-- The entries of a row of a given width, by the number of the row. -/
def block (t : Tensor α) (width k : ℕ) : List α := (t.data.toList.drop (k * width)).take width

/-- The entries along the last axis are there, and they are next to each other. -/
theorem Counted.row_eq_ok {t : Tensor α} (h : t.Counted) (fits : t.shape.prod < Word.count64)
    {dims : List ℕ} {n : ℕ} (shape : t.shape = dims ++ [n]) {q : List ℕ}
    (hq : Influence.inRange dims q = true) :
    (List.range n).mapM (fun s => t.entry (q ++ [s])) = .ok (t.block n (rank dims q)) := by
  have length : t.data.toList.length = dims.prod * n := by
    rw [Array.length_toList, h.size_eq fits, shape, List.prod_append, List.prod_singleton]
  have last : rank dims q * n + n ≤ dims.prod * n := by
    rw [← Nat.succ_mul]
    exact Nat.mul_le_mul_right n (rank_lt_prod hq)
  refine except_mapM_eq_ok_iff.mpr (List.forall₂_iff_get.mpr ⟨?_, fun s hs hs' => ?_⟩)
  · rw [block, List.length_range, List.length_take, List.length_drop, length]
    omega
  · rw [List.length_range] at hs
    have position : t.position (q ++ [s]) = rank dims q * n + s := by
      have within := inRange_concat hq hs
      rw [← shape] at within
      rw [Tensor.position, dot_strides_of_lt fits within, shape,
        rank_concat (length_of_inRange hq)]
    have inside : rank dims q * n + s < t.data.toList.length := by omega
    rw [List.get_eq_getElem, List.get_eq_getElem, List.getElem_range, entry, position,
      ← Array.getElem?_toList, List.getElem?_eq_getElem inside]
    simp only [block, List.getElem_take, List.getElem_drop]

end Tensor

namespace StateMatrix

/-- The matrices that a program can make. -/
inductive Made : StateMatrix α → Prop
  | filled (node : String) (kind : NodeKind) (axes : List Axis) (x : α) :
      Made (.filled node kind axes x)
  | setIndex {m m' : StateMatrix α} {index : List ℕ} {x : α} (made : Made m)
      (run : m.setIndex index x = .ok m') : Made m'
  | set {m m' : StateMatrix α} {refs : List StateRef} {x : α} (made : Made m)
      (run : m.set refs x = .ok m') : Made m'
  | setRow {m m' : StateMatrix α} {leading : List StateRef} {values : List α} (made : Made m)
      (run : m.setRow leading values = .ok m') : Made m'

theorem size_overwrite (data : Array α) (start : ℕ) (xs : List α) :
    (overwrite data start xs).size = data.size := by
  unfold overwrite
  induction xs.zipIdx start generalizing data with
  | nil => rfl
  | cons entry entries ih =>
    rw [List.foldl_cons, ih, Array.size_setIfInBounds]

theorem counted_of_setIndex {m m' : StateMatrix α} (h : m.tensor.Counted) {index : List ℕ} {x : α}
    (run : m.setIndex index x = .ok m') : m'.tensor.Counted := by
  rcases except_bind_eq_ok.mp run with ⟨t, replaced, run⟩
  cases except_pure_eq_ok.mp run
  exact h.set replaced

theorem counted_of_setRow {m m' : StateMatrix α} (h : m.tensor.Counted) {leading : List StateRef}
    {values : List α} (run : m.setRow leading values = .ok m') : m'.tensor.Counted := by
  unfold setRow at run
  split at run
  case h_1 => cases run
  case h_2 width _ =>
    split at run
    case isTrue => cases run
    case isFalse =>
      split at run
      case isTrue => cases run
      case isFalse =>
        rcases except_bind_eq_ok.mp run with ⟨resolved, -, run⟩
        rcases except_bind_eq_ok.mp run with ⟨start, -, run⟩
        split at run
        case isTrue => cases run
        case isFalse =>
          cases except_pure_eq_ok.mp run
          exact (size_overwrite m.tensor.data start values).trans h

theorem Made.counted {m : StateMatrix α} (h : m.Made) : m.tensor.Counted := by
  induction h with
  | filled node kind axes x => exact Tensor.counted_filled _ x
  | setIndex _ run counted => exact counted_of_setIndex counted run
  | set _ run counted =>
    rcases except_bind_eq_ok.mp run with ⟨index, -, run⟩
    exact counted_of_setIndex counted run
  | setRow _ run counted => exact counted_of_setRow counted run

end StateMatrix

namespace Diagram

/-- The sources of tables that a program can make. -/
def TableSource.Made : TableSource α → Prop
  | .plain t => t.Made
  | .matrix m => m.Made

/-- What comes out of a source has the shape of the node and is counted. -/
theorem TableSource.Made.unpack {d : Diagram α} {name : String} {i : ℕ} {source : TableSource α}
    (made : source.Made) {t : Tensor α} (run : d.unpack name i source = .ok t) :
    t.shape = d.expectedShape i ∧ t.Counted := by
  unfold Diagram.unpack at run
  have fitting {u : Tensor α} (counted : u.Counted)
      (run : (if u.shape = d.expectedShape i then pure u
        else .error (.dimensionMismatch name (d.expectedShape i) u.shape) :
          Except (DiagramError α) (Tensor α)) = .ok t) :
      t.shape = d.expectedShape i ∧ t.Counted := by
    split at run
    case isTrue shape =>
      cases except_pure_eq_ok.mp run
      exact ⟨shape, counted⟩
    case isFalse => cases run
  cases source with
  | plain u => exact fitting (Tensor.Made.counted made) run
  | matrix m =>
    dsimp only at run
    split at run
    case isTrue => exact fitting (StateMatrix.Made.counted made) run
    case isFalse => cases run

end Diagram

end Influence
