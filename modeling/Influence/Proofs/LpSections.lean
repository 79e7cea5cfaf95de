import Influence.Proofs.LpRows

/-!
# Sections of LP text

Every line inside a section is indented, and the headings stand at the margin.  So each section can
be told from what stands behind it: the constraints with their positions (`unambiguous_lines`), the
bounds of the continuous variables (`unambiguous_ranges`), whose shapes differ in the number of
their fields, and the names of the binary ones (`unambiguous_nameLines`).
-/

namespace Influence

open Text Program Numeral

variable {α : Type}

namespace LpText

/-! ## Constraints -/

/-- A constraint as it is written: its position, its row, and what the row is compared with. -/
structure Line (α : Type) where
  position : ℕ
  row : Row α
  sense : Sense
  rhs : α

/-- The line of the constraint at a position. -/
def line (m : Program α) (c : Constraint α) (i : ℕ) : Line α := ⟨i, row m c.expr, c.sense, c.rhs⟩

/-- The lines of the constraints that are lazy, or of those that are not. -/
def lines (m : Program α) (isLazy : Bool) : List (Line α) :=
  (m.constraints.toList.zipIdx.filter fun (c, _) => c.isLazy == isLazy).map fun e => line m e.1 e.2

section

variable [Scalar α] [Numeral α]

/-- The characters of a line. -/
def Line.text (mark : String) (l : Line α) : List Char :=
  ' ' :: (mark.toList ++ (l.position.repr.toList ++ ':' :: (l.row.text ++
    ' ' :: (l.sense.symbol.toList ++ ' ' :: ((write l.rhs).toList ++ ['\n'])))))

theorem toList_constraintText (m : Program α) (mark : String) (c : Constraint α) (i : ℕ) :
    (constraintText m mark c i).toList = (line m c i).text mark := by
  unfold constraintText Line.text line
  rw [String.toList_append, String.toList_append, String.toList_append, String.toList_append,
    String.toList_append, String.toList_append, String.toList_append, String.toList_append,
    String.toList_append, toList_exprText]
  simp

theorem toList_sectionText (m : Program α) (mark : String) (isLazy : Bool) :
    (sectionText m mark isLazy).toList = (lines m isLazy).flatMap (Line.text mark) := by
  unfold sectionText lines
  rw [String.toList_join, List.flatMap_map, List.flatMap_map]
  congr 1
  funext e
  exact toList_constraintText m mark e.1 e.2

end

theorem symbol_injective : Function.Injective fun s : Sense => s.symbol.toList := by
  intro s s' same
  cases s <;> cases s' <;> first | rfl | exact absurd same (by decide)

theorem isField_symbol (s : Sense) : IsField s.symbol.toList := by
  cases s <;> exact .of_check (by decide)

theorem endsRow_symbol (s : Sense) (r : List Char) : EndsRow (' ' :: (s.symbol.toList ++ r)) := by
  cases s
  · exact ⟨' ', '<', _, rfl, .inr ⟨rfl, by decide⟩⟩
  · exact ⟨' ', '>', _, rfl, .inr ⟨rfl, by decide⟩⟩
  · exact ⟨' ', '=', _, rfl, .inr ⟨rfl, by decide⟩⟩

/-- A number ends at the first character that is not a digit. -/
theorem unambiguous_repr :
    Unambiguous (fun n : ℕ => n.repr.toList) (fun _ => True) (Stops Char.isDigit) := by
  intro n n' r r' _ _ hr hr' same
  obtain ⟨digits, rest⟩ := unambiguous_word Char.isDigit (fun c hc => isDigit_of_mem_repr hc)
    (fun c hc => isDigit_of_mem_repr hc) hr hr' same
  exact ⟨repr_toList_injective digits, rest⟩

theorem unambiguous_line (mark : String) :
    Unambiguous (Line.text mark) (fun l : Line Float => l.row.Good) fun _ => True := by
  rintro ⟨i, w, s, x⟩ ⟨i', w', s', x'⟩ r r' good good' - - same
  unfold Line.text at same
  simp only [List.cons_append, List.append_assoc, List.nil_append] at same
  have numbered := List.append_cancel_left (List.cons.inj same).2
  obtain ⟨rfl, labelled⟩ := unambiguous_repr trivial trivial (stops_cons rfl _) (stops_cons rfl _)
    numbered
  obtain ⟨rfl, compared⟩ := unambiguous_row good good' (endsRow_symbol s _) (endsRow_symbol s' _)
    (List.cons.inj labelled).2
  obtain ⟨symbol, right⟩ := unambiguous_field (isField_symbol s) (isField_symbol s')
    ⟨' ', _, rfl, rfl⟩ ⟨' ', _, rfl, rfl⟩ (List.cons.inj compared).2
  obtain ⟨digits, rest⟩ := unambiguous_field (legible_float x) (legible_float x')
    ⟨'\n', _, rfl, rfl⟩ ⟨'\n', _, rfl, rfl⟩ (List.cons.inj right).2
  obtain rfl := symbol_injective symbol
  obtain rfl := write_injective (String.toList_injective digits)
  exact ⟨rfl, (List.cons.inj rest).2⟩

/-- The lines of a section can be told from what stands behind it. -/
theorem unambiguous_lines (mark : String) :
    Unambiguous (fun ls : List (Line Float) => ls.flatMap (Line.text mark))
      (fun ls => ∀ l ∈ ls, l.row.Good) StartsFlush :=
  (unambiguous_line mark).indented fun _ _ => ⟨_, rfl⟩

/-! ## Bounds -/

/-- A continuous variable with an identifier, and with bounds that are finite or infinite to their
side. -/
structure IsRange (v : NamedVariable Float) : Prop where
  kind : v.kind = .continuous
  name : IsIdentifier v.name
  lower : v.lower.isFinite = true ∨ v.lower = -Scalar.infinity
  upper : v.upper.isFinite = true ∨ v.upper = Scalar.infinity

/-- The fields of the line for a variable's bounds. -/
def boundFields (v : NamedVariable Float) : List (List Char) :=
  if v.upper.isFinite then
    [(write v.lower).toList, ['<', '='], v.name.toList, ['<', '='], (write v.upper).toList]
  else if v.lower.isFinite then [v.name.toList, ['>', '='], (write v.lower).toList]
  else [v.name.toList, ['f', 'r', 'e', 'e']]

theorem isField_boundFields {v : NamedVariable Float} (h : IsRange v) :
    ∀ f ∈ boundFields v, IsField f := by
  have name := h.name.isField
  have less : IsField ['<', '='] := .of_check (by decide)
  have more : IsField ['>', '='] := .of_check (by decide)
  have free : IsField ['f', 'r', 'e', 'e'] := .of_check (by decide)
  have lower := legible_float v.lower
  have upper := legible_float v.upper
  unfold boundFields
  split
  · simp [name, less, lower, upper]
  · split
    · simp [name, more, lower]
    · simp [name, free]

theorem written_eq {x y : Float} (same : (write x).toList = (write y).toList) : x = y :=
  write_injective (String.toList_injective same)

/-- The three shapes, and what is known where a bound is not written. -/
theorem boundFields_cases {v : NamedVariable Float} (h : IsRange v) :
    boundFields v = [(write v.lower).toList, ['<', '='], v.name.toList, ['<', '='],
      (write v.upper).toList] ∨
    (boundFields v = [v.name.toList, ['>', '='], (write v.lower).toList] ∧
      v.upper = Scalar.infinity) ∨
    (boundFields v = [v.name.toList, ['f', 'r', 'e', 'e']] ∧
      v.lower = -Scalar.infinity ∧ v.upper = Scalar.infinity) := by
  unfold boundFields
  by_cases bounded : v.upper.isFinite = true
  · rw [if_pos bounded]
    exact .inl rfl
  · have top := h.upper.resolve_left bounded
    rw [if_neg bounded]
    by_cases above : v.lower.isFinite = true
    · rw [if_pos above]
      exact .inr (.inl ⟨rfl, top⟩)
    · rw [if_neg above]
      exact .inr (.inr ⟨rfl, h.lower.resolve_left above, top⟩)

/-- The fields determine the name and the bounds. -/
theorem boundFields_injective {v v' : NamedVariable Float} (h : IsRange v) (h' : IsRange v')
    (same : boundFields v = boundFields v') : v = v' := by
  have equal (name : v.name.toList = v'.name.toList) (lower : v.lower = v'.lower)
      (upper : v.upper = v'.upper) : v = v' :=
    NamedVariable.ext (String.toList_injective name) (h.kind.trans h'.kind.symm) lower upper
  -- Lines of different shapes differ in length.
  obtain shape | ⟨shape, top⟩ | ⟨shape, bottom, top⟩ := boundFields_cases h <;>
    obtain shape' | ⟨shape', top'⟩ | ⟨shape', bottom', top'⟩ := boundFields_cases h' <;>
    rw [shape, shape'] at same
  · simp only [List.cons.injEq, and_true, true_and] at same
    exact equal same.2.1 (written_eq same.1) (written_eq same.2.2)
  · simp at same
  · simp at same
  · simp at same
  · simp only [List.cons.injEq, and_true, true_and] at same
    exact equal same.1 (written_eq same.2) (top.trans top'.symm)
  · simp at same
  · simp at same
  · simp at same
  · exact equal (List.cons.inj same).1 (bottom.trans bottom'.symm) (top.trans top'.symm)

theorem write_infinity : write (-Scalar.infinity : Float) = "-inf" := by
  decide +kernel

theorem toList_boundText (name : String) (v : Variable Float)
    (lower : v.lower.isFinite = true ∨ v.lower = -Scalar.infinity) :
    (boundText name v).toList = fieldsLine (boundFields ⟨name, v.kind, v.lower, v.upper⟩) := by
  unfold boundText boundFields fieldsLine
  dsimp only
  split
  case h_1 below above =>
    change v.lower.isFinite = false at below
    change v.upper.isFinite = false at above
    rw [below, above]
    simp
  case h_2 below above =>
    change v.upper.isFinite = true at above
    rw [above]
    simp
  case h_3 below above =>
    change v.lower.isFinite = true at below
    change v.upper.isFinite = false at above
    rw [below, above]
    simp
  case h_4 below above =>
    change v.lower.isFinite = false at below
    change v.upper.isFinite = true at above
    rw [below] at lower
    rw [above, lower.resolve_left Bool.false_ne_true, write_infinity]
    simp

/-- The continuous variables of a program under their names. -/
def ranges (m : Program α) : List (NamedVariable α) :=
  m.namedVariables.filter fun v => v.kind = .continuous

theorem toList_boundsText {m : Program Float}
    (lower : ∀ v ∈ m.vars, v.lower.isFinite = true ∨ v.lower = -Scalar.infinity) :
    (boundsText m).toList = (ranges m).flatMap fun v => fieldsLine (boundFields v) := by
  have items (vs : List (Variable Float)) (k : ℕ)
      (lower : ∀ v ∈ vs, v.lower.isFinite = true ∨ v.lower = -Scalar.infinity) :
      (String.join ((vs.zipIdx k).map fun (v, i) =>
        if v.kind = .binary then "" else boundText (m.exportName i) v)).toList =
      (((vs.zipIdx k).map fun e => (⟨m.exportName e.2, e.1.kind, e.1.lower, e.1.upper⟩ :
        NamedVariable Float)).filter fun v => v.kind = .continuous).flatMap
          fun v => fieldsLine (boundFields v) := by
    induction vs generalizing k with
    | nil => rfl
    | cons v vs ih =>
      obtain ⟨own, others⟩ := List.forall_mem_cons.mp lower
      have rest := ih (k + 1) others
      rw [String.toList_join] at rest ⊢
      rw [List.zipIdx_cons, List.map_cons, List.map_cons, List.flatMap_cons, rest, List.filter_cons]
      cases kind : v.kind with
      | binary => simp [kind]
      | continuous =>
        have written := toList_boundText (m.exportName k) v own
        rw [kind] at written
        simp [kind, written]
  exact items m.vars.toList 0 fun v hv => lower v (Array.mem_toList_iff.mp hv)

theorem unambiguous_ranges : Unambiguous
    (fun vs : List (NamedVariable Float) => vs.flatMap fun v => fieldsLine (boundFields v))
    (fun vs => ∀ v ∈ vs, IsRange v) StartsFlush := by
  apply Unambiguous.indented
  · intro v v' r r' hv hv' _ _ same
    obtain ⟨fields, rest⟩ := unambiguous_fieldsLine (isField_boundFields hv)
      (isField_boundFields hv') trivial trivial same
    exact ⟨boundFields_injective hv hv' fields, rest⟩
  · intro v _
    unfold boundFields
    split
    · exact ⟨_, rfl⟩
    · split <;> exact ⟨_, rfl⟩

/-! ## Binary variables -/

/-- The names of the binary variables. -/
def bitNames (m : Program α) : List String :=
  (m.namedVariables.filter fun v => v.kind = .binary).map (·.name)

theorem exists_of_mem_namedVariables {m : Program α} {v : NamedVariable α}
    (hv : v ∈ m.namedVariables) :
    ∃ w ∈ m.vars, ∃ i, v = ⟨m.exportName i, w.kind, w.lower, w.upper⟩ := by
  obtain ⟨e, he, rfl⟩ := List.mem_map.mp hv
  exact ⟨e.1, Array.mem_toList_iff.mp (List.fst_mem_of_mem_zipIdx he), e.2, rfl⟩

/-- A binary variable is known by its name. -/
theorem bits_eq [Scalar α] {m : Program α} (h : m.Tidy) :
    (m.namedVariables.filter fun v => v.kind = .binary) =
      (bitNames m).map fun name => ⟨name, .binary, 0, 1⟩ := by
  rw [bitNames, List.map_map]
  apply List.ext_getElem
  · rw [List.length_map]
  · intro i hi hi'
    rw [List.getElem_map]
    obtain ⟨listed, kind⟩ := List.mem_filter.mp (List.getElem_mem hi)
    obtain ⟨w, hw, k, named⟩ := exists_of_mem_namedVariables listed
    rw [named] at kind ⊢
    have bit := h.bits w hw (of_decide_eq_true kind)
    rw [bit.kind, bit.lower, bit.upper]
    rfl

/-- Names on lines of eight. -/
def nameLines (names : List String) : List Char :=
  (pieces perLine names).flatMap fun line => fieldsLine (line.map String.toList)

theorem flatten_pieces {β : Type} (width : ℕ) (xs : List β) :
    (pieces width xs).flatten = xs := by
  fun_induction pieces width xs with
  | case1 => rfl
  | case2 x xs ih => rw [List.flatten_cons, ih, List.cons_append, List.take_append_drop]

theorem ne_nil_of_mem_pieces {β : Type} {width : ℕ} {xs line : List β}
    (h : line ∈ pieces width xs) : line ≠ [] := by
  fun_induction pieces width xs with
  | case1 => cases h
  | case2 x xs ih =>
    obtain rfl | later := List.mem_cons.mp h
    · exact List.cons_ne_nil _ _
    · exact ih later

theorem toList_joined {names : List String} (h : names ≠ []) :
    (" " ++ joined " " names ++ "\n").toList = fieldsLine (names.map String.toList) := by
  have spaced (names : List String) (h : names ≠ []) :
      ' ' :: (joined " " names).toList = names.flatMap fun name => ' ' :: name.toList := by
    induction names with
    | nil => exact absurd rfl h
    | cons name names ih =>
      cases names with
      | nil => simp [joined]
      | cons next names =>
        rw [joined, List.flatMap_cons, ← ih (List.cons_ne_nil _ _)]
        · simp
        · exact List.cons_ne_nil _ _
  rw [fieldsLine, List.flatMap_map, ← spaced names h, String.toList_append, String.toList_append]
  rfl

theorem filterMap_isBinary (m : Program α) : ((List.range m.vars.size).filterMap fun i =>
    if m.isBinary i then some (m.exportName i) else none) = bitNames m := by
  have items (es : List (Variable α × ℕ)) (h : ∀ e ∈ es, m.vars[e.2]? = some e.1) :
      (es.map Prod.snd).filterMap (fun i =>
        if m.isBinary i then some (m.exportName i) else none) =
      ((es.map fun e => (⟨m.exportName e.2, e.1.kind, e.1.lower, e.1.upper⟩ :
        NamedVariable α)).filter fun v => v.kind = .binary).map (·.name) := by
    induction es with
    | nil => rfl
    | cons e es ih =>
      obtain ⟨own, others⟩ := List.forall_mem_cons.mp h
      have bit : m.isBinary e.2 = (e.1.kind == .binary) := by rw [isBinary, own, Option.any_some]
      rw [List.map_cons, List.filterMap_cons, bit, List.map_cons, List.filter_cons]
      cases kind : e.1.kind with
      | binary => simpa [kind] using ih others
      | continuous => simpa [kind] using ih others
  have numbers : List.range m.vars.size = m.vars.toList.zipIdx.map Prod.snd := by
    rw [List.zipIdx_map_snd, Array.length_toList, List.range_eq_range']
  rw [numbers]
  apply items
  intro e he
  rw [← Array.getElem?_toList]
  exact List.mem_zipIdx_iff_getElem?.mp he

theorem toList_binariesText [Scalar α] (m : Program α) :
    (binariesText m).toList = headed "Binaries\n" nameLines (bitNames m) := by
  unfold binariesText headed nameLines
  dsimp only
  rw [filterMap_isBinary]
  split
  · rfl
  · rw [String.toList_append, String.toList_join, List.flatMap_map]
    congr 1
    apply List.flatMap_congr
    intro line hline
    exact toList_joined (ne_nil_of_mem_pieces hline)

theorem unambiguous_nameLines :
    Unambiguous nameLines (fun names => ∀ name ∈ names, IsIdentifier name) StartsFlush := by
  have line : Unambiguous (fun line : List String => fieldsLine (line.map String.toList))
      (fun line => line ≠ [] ∧ ∀ name ∈ line, IsIdentifier name) fun _ => True := by
    intro line line' r r' good good' _ _ same
    have fields {line : List String} (good : ∀ name ∈ line, IsIdentifier name) :
        ∀ f ∈ line.map String.toList, IsField f := by
      intro f hf
      obtain ⟨name, hname, rfl⟩ := List.mem_map.mp hf
      exact (good name hname).isField
    obtain ⟨letters, rest⟩ := unambiguous_fieldsLine (fields good.2) (fields good'.2) trivial
      trivial same
    exact ⟨List.map_injective_iff.mpr (fun _ _ => String.toList_injective) letters, rest⟩
  have starts : ∀ line : List String, (line ≠ [] ∧ ∀ name ∈ line, IsIdentifier name) →
      ∃ s, fieldsLine (line.map String.toList) = ' ' :: s := by
    rintro line ⟨nonempty, -⟩
    obtain ⟨name, line, rfl⟩ := List.exists_cons_of_ne_nil nonempty
    exact ⟨_, rfl⟩
  have good {names : List String} (h : ∀ name ∈ names, IsIdentifier name) :
      ∀ line ∈ pieces perLine names, line ≠ [] ∧ ∀ name ∈ line, IsIdentifier name := by
    intro line hline
    refine ⟨ne_nil_of_mem_pieces hline, fun name hname => h name ?_⟩
    rw [← flatten_pieces perLine names]
    exact List.mem_flatten_of_mem hline hname
  intro names names' r r' h h' hr hr' same
  obtain ⟨equal, rest⟩ := line.indented starts (good h) (good h') hr hr' same
  rw [← flatten_pieces perLine names, ← flatten_pieces perLine names', equal]
  exact ⟨rfl, rest⟩

end LpText

end Influence
