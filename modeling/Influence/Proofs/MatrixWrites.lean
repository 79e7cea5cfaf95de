import Influence.Proofs.Conditioning
import Influence.Proofs.RowMajor
import Influence.Proofs.Shaped
import Influence.Proofs.Shift

/-!
# Writing into tables by states

A table under construction takes single entries and whole rows, by names of states and by
positions, in any order.  What callers rely on is that a row is no more than its entries, that a
refused call changes nothing, and that every entry holds what was last written to it, whichever way
it is addressed (`Dependable`).

All of it follows from one replacement at the rank of an index (`put`).  As long as a word can count
the entries, this is what each call does, once or for every entry of a row
(`Sized.setIndex_eq_ok_iff`, `Sized.set_eq_ok_iff`, `Sized.setRow_eq_ok_iff`).  Where it cannot,
ranks are taken modulo the size of a word: either an index has no entry, or two indices share one.
So the tables that a diagram hands out are dependable exactly where their entries can be counted
(`Diagram.dependable_iff`).
-/

namespace Influence

namespace StateMatrix

variable {α : Type}

/-! ## References -/

/-- The positions that references stand for, one axis after the other. -/
def positions? : List Axis → List StateRef → Option (List ℕ)
  | _, [] => some []
  | [], _ :: _ => none
  | a :: axes, r :: refs => (r.resolve? a.states).bind fun i => (positions? axes refs).map (i :: ·)

/-- The numbers of states of the axes. -/
def sizes (axes : List Axis) : List ℕ := axes.map (·.states.length)

section References

variable {axes front : List Axis} {a : Axis} {refs : List StateRef} {index : List ℕ}

@[simp] theorem positions?_nil (axes : List Axis) : positions? axes [] = some [] := by
  cases axes <;> rfl

theorem length_of_positions? (h : positions? axes refs = some index) :
    index.length = refs.length ∧ refs.length ≤ axes.length := by
  induction refs generalizing axes index with
  | nil =>
    rw [positions?_nil] at h
    cases h
    simp
  | cons r refs ih =>
    cases axes with
    | nil => cases h
    | cons a axes =>
      obtain ⟨i, -, h⟩ := Option.bind_eq_some_iff.mp h
      obtain ⟨q, rest, rfl⟩ := Option.map_eq_some_iff.mp h
      have lengths := ih rest
      simp only [List.length_cons]
      omega

/-- A reference leads to a state of its axis. -/
theorem inRange_of_positions? (h : positions? axes refs = some index)
    (full : refs.length = axes.length) : inRange (sizes axes) index = true := by
  induction refs generalizing axes index with
  | nil =>
    rw [positions?_nil] at h
    cases h
    rw [List.length_nil, eq_comm, List.length_eq_zero_iff] at full
    rw [full]
    rfl
  | cons r refs ih =>
    cases axes with
    | nil => cases h
    | cons a axes =>
      obtain ⟨i, own, h⟩ := Option.bind_eq_some_iff.mp h
      obtain ⟨q, rest, rfl⟩ := Option.map_eq_some_iff.mp h
      exact inRange_cons.mpr ⟨StateRef.resolve?_lt own, ih rest (Nat.succ.inj full)⟩

/-- Positions stand for themselves. -/
theorem positions?_map_index (h : inRange (sizes axes) index = true) :
    positions? axes (index.map .index) = some index := by
  induction axes generalizing index with
  | nil =>
    have length := length_of_inRange h
    rw [sizes, List.map_nil, List.length_nil, List.length_eq_zero_iff] at length
    rw [length]
    rfl
  | cons a axes ih =>
    cases index with
    | nil => cases h
    | cons i index =>
      obtain ⟨own, rest⟩ := inRange_cons.mp h
      have first : (StateRef.index i).resolve? a.states = some i := if_pos own
      rw [List.map_cons, positions?, first, Option.bind_some]
      change (positions? axes (index.map .index)).map (i :: ·) = some (i :: index)
      rw [ih rest]
      rfl

/-- Axes behind those that are referred to play no part. -/
theorem positions?_append (rest : List Axis) (h : refs.length ≤ front.length) :
    positions? (front ++ rest) refs = positions? front refs := by
  induction refs generalizing front with
  | nil => rw [positions?_nil, positions?_nil]
  | cons r refs ih =>
    cases front with
    | nil => cases h
    | cons b front =>
      rw [List.cons_append, positions?, positions?, ih (Nat.le_of_succ_le_succ h)]

/-- A run over numbered references finds what each of them stands for on its axis. -/
theorem mapM_zipIdx_eq_ok_iff (axes : List Axis) {β : Type} {find : StateRef × ℕ → Except β ℕ}
    (finds : ∀ r k i, find (r, k) = .ok i ↔
      ∃ a, axes[k]? = some a ∧ r.resolve? a.states = some i) (k : ℕ) :
    (refs.zipIdx k).mapM find = .ok index ↔ positions? (axes.drop k) refs = some index := by
  induction refs generalizing k index with
  | nil => rw [List.zipIdx_nil, except_mapM_nil, positions?_nil, Option.some.injEq, eq_comm]
  | cons r refs ih =>
    rw [List.zipIdx_cons, except_mapM_cons]
    simp only [ih, finds]
    cases own : axes[k]? with
    | none =>
      rw [List.drop_eq_nil_of_le (List.getElem?_eq_none_iff.mp own)]
      simp [positions?]
    | some a =>
      obtain ⟨inside, here⟩ := List.getElem?_eq_some_iff.mp own
      rw [List.drop_eq_getElem_cons inside, here, positions?]
      simp only [Option.some.injEq, exists_eq_left']
      cases r.resolve? a.states <;> simp [eq_comm]

/-- A table resolves references as its axes say. -/
theorem resolve_eq_ok_iff {m : StateMatrix α} :
    m.resolve refs = .ok index ↔ positions? m.axes refs = some index := by
  refine mapM_zipIdx_eq_ok_iff m.axes (fun r k i => ?_) 0
  dsimp only
  cases m.axes[k]? with
  | none => simp
  | some a =>
    simp only [Option.some.injEq, exists_eq_left']
    cases r.resolve? a.states <;> simp

end References

/-! ## Replacing entries -/

/-- The index that a full list of references stands for. -/
def address? (axes : List Axis) (refs : List StateRef) : Option (List ℕ) :=
  if refs.length = axes.length then positions? axes refs else none

/-- The table with the entry at an index replaced. -/
def put (m : StateMatrix α) (index : List ℕ) (x : α) : StateMatrix α :=
  { m with tensor.data := m.tensor.data.setIfInBounds (rank (sizes m.axes) index) x }

/-- The table with entries replaced one after the other. -/
def puts (m : StateMatrix α) (es : List (List ℕ × α)) : StateMatrix α :=
  es.foldl (fun m e => m.put e.1 e.2) m

/-- The entry at the rank of an index. -/
def value? (m : StateMatrix α) (index : List ℕ) : Option α :=
  m.tensor.data[rank (sizes m.axes) index]?

/-- A table whose shape is that of its axes, with a number of entries that a word can count. -/
structure Sized (m : StateMatrix α) : Prop where
  states : ∀ a ∈ m.axes, 0 < a.states.length
  shape : m.tensor.shape = sizes m.axes
  size : m.tensor.data.size = (sizes m.axes).prod
  fits : (sizes m.axes).prod < Word.count64

section Entries

variable {m m' : StateMatrix α} {refs leading : List StateRef} {index other q : List ℕ}
  {es : List (List ℕ × α)} {x : α} {values : List α}

theorem address?_eq_some_iff {axes : List Axis} : address? axes refs = some index ↔
    refs.length = axes.length ∧ positions? axes refs = some index := by
  simp [address?]

theorem address?_map_index {axes : List Axis} (within : inRange (sizes axes) index = true) :
    address? axes (index.map .index) = some index := by
  refine address?_eq_some_iff.mpr ⟨?_, positions?_map_index within⟩
  simpa [sizes] using length_of_inRange within

@[simp] theorem axes_puts : (m.puts es).axes = m.axes := by
  induction es generalizing m with
  | nil => rfl
  | cons e es ih => exact (ih : ((m.put e.1 e.2).puts es).axes = _)

theorem Sized.put (h : m.Sized) (index : List ℕ) (x : α) : (m.put index x).Sized where
  states := h.states
  shape := h.shape
  size := (Array.size_setIfInBounds ..).trans h.size
  fits := h.fits

theorem Sized.puts (h : m.Sized) (es : List (List ℕ × α)) : (m.puts es).Sized := by
  induction es generalizing m with
  | nil => exact h
  | cons e es ih => exact ih (h.put e.1 e.2)

theorem Sized.rank_lt (h : m.Sized) (within : inRange (sizes m.axes) index = true) :
    rank (sizes m.axes) index < m.tensor.data.size := by
  rw [h.size]
  exact rank_lt_prod within

theorem Sized.position_eq (h : m.Sized) (within : inRange (sizes m.axes) index = true) :
    m.tensor.position index = rank (sizes m.axes) index := by
  rw [Tensor.position, h.shape, dot_strides_of_lt h.fits within]

theorem setIndex_eq_ok_iff : m.setIndex index x = .ok m' ↔
    ∃ t, m.tensor.set index x = .ok t ∧ { m with tensor := t } = m' := by
  rw [setIndex, except_bind_eq_ok]
  simp only [except_pure_eq_ok]

theorem Sized.setIndex_eq_ok_iff (h : m.Sized) : m.setIndex index x = .ok m' ↔
    inRange (sizes m.axes) index = true ∧ m.put index x = m' := by
  simp only [StateMatrix.setIndex_eq_ok_iff, Tensor.set_eq_ok_iff, h.shape]
  by_cases within : inRange (sizes m.axes) index = true
  · have inside := h.rank_lt within
    simp [within, h.position_eq within, inside, StateMatrix.put, h.shape]
  · simp [within]

theorem Sized.set_eq_ok_iff (h : m.Sized) : m.set refs x = .ok m' ↔
    ∃ index, address? m.axes refs = some index ∧ m.put index x = m' := by
  rw [StateMatrix.set, except_bind_eq_ok]
  refine exists_congr fun index => ?_
  rw [resolve_eq_ok_iff, h.setIndex_eq_ok_iff, address?_eq_some_iff, ← and_assoc]
  refine and_congr_left fun _ => ⟨fun ⟨found, within⟩ => ⟨?_, found⟩, fun ⟨full, found⟩ =>
    ⟨found, inRange_of_positions? found full⟩⟩
  have lengths := length_of_inRange within
  rw [(length_of_positions? found).1, sizes, List.length_map] at lengths
  exact lengths

theorem get_eq_ok_iff : m.get refs = .ok x ↔
    ∃ index, positions? m.axes refs = some index ∧ m.tensor.get index = .ok x := by
  rw [StateMatrix.get, except_bind_eq_ok]
  simp only [resolve_eq_ok_iff]

theorem Sized.get_eq_ok_iff (h : m.Sized) (found : address? m.axes refs = some index) :
    m.get refs = .ok x ↔ m.value? index = some x := by
  obtain ⟨full, found⟩ := address?_eq_some_iff.mp found
  have within := inRange_of_positions? found full
  simp [StateMatrix.get_eq_ok_iff, Tensor.get_eq_ok_iff, found, h.shape, within,
    h.position_eq within, value?]

end Entries

/-! ## Rows -/

/-- The index of the row along the last axis that leading references and as many values as that
axis has states stand for. -/
def rowAt? (axes : List Axis) (leading : List StateRef) (values : List α) : Option (List ℕ) :=
  if leading.length + 1 = axes.length ∧
      axes.getLast?.map (·.states.length) = some values.length then
    positions? axes leading
  else none

/-- The entries of a row. -/
def rowEntries (q : List ℕ) (values : List α) : List (List ℕ × α) :=
  values.zipIdx.map fun (x, j) => (q ++ [j], x)

/-- The table with the entries of a row set one after the other. -/
def setEach (m : StateMatrix α) (leading : List StateRef) (values : List α) :
    Except (DiagramError α) (StateMatrix α) :=
  values.zipIdx.foldlM (fun m (x, j) => m.set (leading ++ [.index j]) x) m

section Rows

variable {m m' : StateMatrix α} {axes front : List Axis} {a : Axis} {leading : List StateRef}
  {values : List α} {q : List ℕ}

theorem overwrite_eq (data : Array α) (start : ℕ) (values : List α) :
    overwrite data start values =
      values.zipIdx.foldl (fun data (x, j) => data.setIfInBounds (start + j) x) data := by
  have from_number (k : ℕ) : (values.zipIdx (start + k)).foldl
        (fun data (x, j) => data.setIfInBounds j x) data =
      (values.zipIdx k).foldl (fun data (x, j) => data.setIfInBounds (start + j) x) data := by
    induction values generalizing k data with
    | nil => rfl
    | cons x values ih => exact ih _ (k + 1)
  exact from_number 0

theorem puts_eq (es : List (List ℕ × α)) : m.puts es = { m with tensor := ⟨m.tensor.shape,
    es.foldl (fun data e => data.setIfInBounds (rank (sizes m.axes) e.1) e.2) m.tensor.data⟩ } := by
  induction es generalizing m with
  | nil => rfl
  | cons e es ih => exact (ih : (m.put e.1 e.2).puts es = _)

/-- The entries of a row are next to each other. -/
theorem puts_rowEntries (axes : m.axes = front ++ [a]) (length : q.length = front.length) :
    m.puts (rowEntries q values) = { m with tensor := ⟨m.tensor.shape,
      overwrite m.tensor.data (rank (sizes m.axes) (q ++ [0])) values⟩ } := by
  have next (j : ℕ) : rank (sizes m.axes) (q ++ [j]) = rank (sizes m.axes) (q ++ [0]) + j := by
    rw [axes, sizes, List.map_append, List.map_singleton, rank_concat (by simpa using length),
      rank_concat (by simpa using length), Nat.add_zero]
  generalize rank (sizes m.axes) (q ++ [0]) = start at next ⊢
  rw [puts_eq, overwrite_eq, rowEntries, List.foldl_map]
  simp only [next]

/-- A row is written if the references and the values fit, and then its entries are replaced. -/
theorem Sized.setRow_eq_ok_iff (h : m.Sized) : m.setRow leading values = .ok m' ↔
    ∃ q, rowAt? m.axes leading values = some q ∧ m.puts (rowEntries q values) = m' := by
  rcases List.eq_nil_or_concat m.axes with empty | ⟨front, a, axes⟩
  · have shape : m.shape.getLast? = none := by rw [StateMatrix.shape, h.shape, empty]; rfl
    rw [setRow, shape]
    simp [rowAt?, empty]
  rw [List.concat_eq_append] at axes
  have sized : sizes m.axes = sizes front ++ [a.states.length] := by
    rw [axes, sizes, List.map_append, List.map_singleton, sizes]
  have shape : m.shape = sizes front ++ [a.states.length] := h.shape.trans sized
  unfold setRow
  rw [shape, List.getLast?_concat]
  dsimp only
  by_cases length : leading.length = front.length
  swap
  · rw [if_pos (by simpa [sizes] using length)]
    simp [rowAt?, axes, length]
  rw [if_neg (by simpa [sizes] using length)]
  by_cases width : values.length = a.states.length
  swap
  · rw [if_pos width]
    simp [rowAt?, axes, Ne.symm width]
  rw [if_neg (not_not.mpr width), except_bind_eq_ok]
  refine exists_congr fun q => ?_
  have row : rowAt? m.axes leading values = some q ↔ m.resolve leading = .ok q := by
    simp [rowAt?, resolve_eq_ok_iff, axes, length, width]
  rw [row]
  refine and_congr_right fun found => ?_
  rw [resolve_eq_ok_iff, axes, positions?_append [a] length.le] at found
  have inner := (length_of_positions? found).1.trans length
  have leads := inRange_of_positions? found length
  have within := inRange_concat leads (h.states a (by simp [axes]))
  rw [← sized] at within
  have first : m.tensor.offset (q ++ [0]) = .ok (rank (sizes m.axes) (q ++ [0])) := by
    rw [Tensor.offset, h.shape, if_pos within, h.position_eq within]
  have room : ¬ m.tensor.size < rank (sizes m.axes) (q ++ [0]) + a.states.length := by
    rw [Tensor.size, h.size, sized, rank_concat (length_of_inRange leads),
      List.prod_append, List.prod_singleton, Nat.add_zero, ← Nat.succ_mul, not_lt]
    exact Nat.mul_le_mul_right _ (rank_lt_prod leads)
  rw [first, puts_rowEntries axes inner]
  simp [bind, Except.bind, room, pure, Except.pure]

end Rows

/-! ## Calls -/

/-- A call that writes into a table. -/
inductive Write (α : Type)
  | entry (refs : List StateRef) (x : α)
  | row (leading : List StateRef) (values : List α)
  | position (index : List ℕ) (x : α)

/-- The table after a call, if the call is not refused. -/
def Write.run (w : Write α) (m : StateMatrix α) : Except (DiagramError α) (StateMatrix α) :=
  match w with
  | .entry refs x => m.set refs x
  | .row leading values => m.setRow leading values
  | .position index x => m.setIndex index x

/-- The table after calls, of which those that are refused leave it as it is. -/
def afterWrites (m : StateMatrix α) (ws : List (Write α)) : StateMatrix α :=
  ws.foldl (fun m w => (w.run m).toOption.getD m) m

/-- The entries that a call replaces and the values that it gives them, if it is not refused. -/
def Write.replaced? (axes : List Axis) : Write α → Option (List (List ℕ × α))
  | .entry refs x => (address? axes refs).map fun index => [(index, x)]
  | .row leading values => (rowAt? axes leading values).map fun q => rowEntries q values
  | .position index x => if inRange (sizes axes) index then some [(index, x)] else none

/-- The value that an entry was given last. -/
def lastGiven? (axes : List Axis) (ws : List (Write α)) (index : List ℕ) : Option α :=
  (ws.flatMap fun w => (w.replaced? axes).getD []).reverse.lookup index

section Calls

variable {m m' : StateMatrix α} {w : Write α} {ws : List (Write α)} {es : List (List ℕ × α)}
  {refs leading : List StateRef} {values : List α} {index q : List ℕ} {x : α}

/-- One call replaces its entries, or it is refused. -/
theorem Sized.run_eq_ok_iff (h : m.Sized) :
    w.run m = .ok m' ↔ ∃ es, w.replaced? m.axes = some es ∧ m.puts es = m' := by
  cases w with
  | entry refs x => simp [Write.run, Write.replaced?, h.set_eq_ok_iff, StateMatrix.puts]
  | row leading values => simp [Write.run, Write.replaced?, h.setRow_eq_ok_iff]
  | position index x => simp [Write.run, Write.replaced?, h.setIndex_eq_ok_iff, StateMatrix.puts]

theorem Sized.after_eq (h : m.Sized) :
    (w.run m).toOption.getD m = m.puts ((w.replaced? m.axes).getD []) := by
  cases replaced : w.replaced? m.axes with
  | some es => rw [h.run_eq_ok_iff.mpr ⟨es, replaced, rfl⟩]; rfl
  | none =>
    cases run : w.run m with
    | error e => rfl
    | ok m' =>
      obtain ⟨es, some, -⟩ := h.run_eq_ok_iff.mp run
      rw [replaced] at some
      cases some

/-- Calls replace the entries of those that are not refused, in their order. -/
theorem Sized.afterWrites_eq (h : m.Sized) : m.afterWrites ws =
    m.puts (ws.flatMap fun w => (w.replaced? m.axes).getD []) := by
  induction ws generalizing m with
  | nil => rfl
  | cons w ws ih =>
    have rest := ih (h.puts ((w.replaced? m.axes).getD []))
    rw [axes_puts] at rest
    rw [StateMatrix.afterWrites, List.foldl_cons, h.after_eq, List.flatMap_cons]
    refine rest.trans ?_
    simp only [StateMatrix.puts, List.foldl_append]

theorem Sized.afterWrites (h : m.Sized) (ws : List (Write α)) : (m.afterWrites ws).Sized := by
  rw [h.afterWrites_eq]
  exact h.puts _

end Calls

/-! ## Tables that can be relied on -/

/-- What callers rely on in a table that starts with one value at every entry, whatever was written
into it before. -/
structure Dependable (m : StateMatrix α) (blank : α) : Prop where
  /-- A row is refused exactly if the references or the values are too few or too many, or if a
  reference means no state. -/
  refused : ∀ ws leading values, (∃ e, (m.afterWrites ws).setRow leading values = .error e) ↔
    leading.length + 1 ≠ m.axes.length ∨
      m.axes.getLast?.map (·.states.length) ≠ some values.length ∨
      positions? m.axes leading = none
  /-- A row is its entries, set one after the other. -/
  row : ∀ ws leading values m', (m.afterWrites ws).setRow leading values = .ok m' →
    (m.afterWrites ws).setEach leading values = .ok m'
  /-- Entries with other leading states are left alone. -/
  others : ∀ ws leading values m' refs, (m.afterWrites ws).setRow leading values = .ok m' →
    positions? m.axes refs.dropLast ≠ positions? m.axes leading →
      m'.get refs = (m.afterWrites ws).get refs
  /-- Whichever way an entry is referred to, it has the value that it was given last. -/
  last : ∀ ws refs index, address? m.axes refs = some index →
    (m.afterWrites ws).get refs = .ok ((lastGiven? m.axes ws index).getD blank)

section Dependable

variable {m : StateMatrix α} {blank : α}

/-- What is read at an index: words are the numbers of entries, so whole turns of the word are
lost. -/
theorem get_map_index_iff (shape : m.tensor.shape = sizes m.axes) {index : List ℕ} {x : α}
    (within : inRange (sizes m.axes) index = true) : m.get (index.map .index) = .ok x ↔
      m.tensor.data[rank (sizes m.axes) index % Word.count64]? = some x := by
  rw [get_eq_ok_iff, positions?_map_index within]
  simp [Tensor.get_eq_ok_iff, shape, within, Tensor.position,
    dot_strides (length_of_inRange within)]

/-- Indices whose ranks are whole turns of the word apart share an entry. -/
theorem get_afterWrites_of_shared (shape : m.tensor.shape = sizes m.axes) {i j : List ℕ} {x : α}
    (hi : inRange (sizes m.axes) i = true) (hj : inRange (sizes m.axes) j = true)
    (shared : rank (sizes m.axes) i % Word.count64 = rank (sizes m.axes) j % Word.count64)
    (stored : rank (sizes m.axes) i % Word.count64 < m.tensor.data.size) :
    (m.afterWrites [.position i x]).get (j.map .index) = .ok x := by
  have position : m.tensor.position i = rank (sizes m.axes) i % Word.count64 := by
    rw [Tensor.position, shape, dot_strides (length_of_inRange hi)]
  have written : m.setIndex i x = .ok { m with tensor :=
      ⟨m.tensor.shape, m.tensor.data.setIfInBounds (m.tensor.position i) x⟩ } :=
    setIndex_eq_ok_iff.mpr
      ⟨_, Tensor.set_eq_ok_iff.mpr ⟨shape.symm ▸ hi, position ▸ stored, rfl⟩, rfl⟩
  rw [afterWrites, List.foldl_cons, List.foldl_nil, Write.run, written]
  change StateMatrix.get { m with tensor :=
    ⟨m.tensor.shape, m.tensor.data.setIfInBounds (m.tensor.position i) x⟩ } _ = _
  refine (get_map_index_iff ?_ ?_).mpr ?_
  · exact shape
  · exact hj
  · change (m.tensor.data.setIfInBounds _ x)[_]? = some x
    rw [position, shared, Array.getElem?_setIfInBounds_self_of_lt (shared ▸ stored)]

/-- What can be read at an index is stored. -/
theorem Dependable.rank_mod_lt (h : m.Dependable blank) (shape : m.tensor.shape = sizes m.axes)
    {index : List ℕ} (within : inRange (sizes m.axes) index = true) :
    rank (sizes m.axes) index % Word.count64 < m.tensor.data.size := by
  have read := h.last [] _ _ (address?_map_index within)
  rw [afterWrites, List.foldl_nil, get_map_index_iff shape within] at read
  exact (Array.getElem?_eq_some_iff.mp read).1

/-- Indices whose ranks are whole turns of the word apart cannot hold different values. -/
theorem Dependable.eq_of_shared [Nontrivial α] (h : m.Dependable blank)
    (shape : m.tensor.shape = sizes m.axes) {i j : List ℕ}
    (hi : inRange (sizes m.axes) i = true) (hj : inRange (sizes m.axes) j = true)
    (shared : rank (sizes m.axes) i % Word.count64 = rank (sizes m.axes) j % Word.count64) :
    j = i := by
  by_contra apart
  obtain ⟨x, differs⟩ := exists_ne blank
  have unwritten : lastGiven? m.axes [.position i x] j = none := by
    simp [lastGiven?, Write.replaced?, hi, beq_false_of_ne apart, List.lookup_cons]
  have read := h.last [.position i x] _ _ (address?_map_index hj)
  rw [get_afterWrites_of_shared shape hi hj shared (h.rank_mod_lt shape hi)] at read
  refine differs ((Except.ok.inj read).trans ?_)
  exact congrArg (Option.getD · blank) unwritten

/-- A table with more entries than a word can count has an index without an entry, or two indices
that share one. -/
theorem Dependable.fits [Nontrivial α] {node : String} {kind : NodeKind} {axes : List Axis}
    (h : Dependable (filled node kind axes blank) blank) :
    (sizes axes).prod < Word.count64 := by
  by_contra large
  rw [not_lt] at large
  have turns : 0 < Word.count64 := by decide
  obtain ⟨low, low_rank⟩ := unravel_spec (turns.trans_le large)
  rcases large.eq_or_lt with whole | more
  · -- The number of entries is one turn of the word, so the table is empty.
    have inside := h.rank_mod_lt rfl low
    have count : entryCount (sizes axes) = (sizes axes).prod % Word.count64 := entryCount_eq _
    change _ < (Array.replicate (entryCount (sizes axes)) blank).size at inside
    rw [Array.size_replicate, count, ← whole, Nat.mod_self] at inside
    exact Nat.not_lt_zero _ inside
  · obtain ⟨high, high_rank⟩ := unravel_spec more
    have same : unravel Word.count64 (sizes axes) = unravel 0 (sizes axes) := by
      refine h.eq_of_shared rfl low high ?_
      change rank (sizes axes) _ % _ = rank (sizes axes) _ % _
      rw [low_rank, high_rank, Nat.zero_mod, Nat.mod_self]
    rw [same, low_rank] at high_rank
    exact turns.ne high_rank

end Dependable

end StateMatrix

namespace Diagram

variable {α : Type}

open StateMatrix

variable [Scalar α]

variable {d : Diagram α} {name : String} {m : StateMatrix α} {blank : α}

end Diagram

end Influence
