import Influence.Proofs.Building
import Influence.Proofs.SolutionText

/-!
# Names of variables in solution files

A variable goes by the name that it was given, and without one by `v` and its number.  A solution
file may use either, but given names come first: a variable that was given the name `v7` shadows
the variable with the number seven (`Shadows`), whose values are then taken for its own.  What is
more, `v` and a number mean the variable with that number also where it was given another name, and
with leading zeros or a plus sign (`IsAlias`).

So the names in exported files are those that are read back exactly where no variable shadows
another (`reads_back_iff`).
-/

namespace Influence

open Text Numeral

variable {α : Type}

namespace Program

/-! ## Given names -/

/-- The name that a variable was given. -/
def given? (m : Program α) (v : ℕ) : Option String := (m.vars[v]?).bind (·.name)

/-- No two variables were given one name. -/
def Distinct (m : Program α) : Prop :=
  ∀ v w name, m.given? v = some name → m.given? w = some name → v = w

theorem lt_of_given? {m : Program α} {v : ℕ} {name : String} (h : m.given? v = some name) :
    v < m.vars.size := by
  rcases Option.bind_eq_some_iff.mp h with ⟨w, hw, -⟩
  exact (Array.getElem?_eq_some_iff.mp hw).1

theorem given?_empty [Scalar α] (v : ℕ) : (empty : Program α).given? v = none :=
  rfl

theorem given?_push (m : Program α) (w : Variable α) (v : ℕ) :
    given? { m with vars := m.vars.push w } v = if v = m.vars.size then w.name else m.given? v := by
  unfold given?
  rw [Array.getElem?_push]
  split <;> rfl

theorem exportName_of_given? {m : Program α} {v : ℕ} {name : String}
    (h : m.given? v = some name) : m.exportName v = name :=
  congrArg (fun given : Option String => given.getD ("v" ++ v.repr)) h

theorem exportName_of_unnamed {m : Program α} {v : ℕ} (h : m.given? v = none) :
    m.exportName v = "v" ++ v.repr :=
  congrArg (fun given : Option String => given.getD ("v" ++ v.repr)) h

theorem find?_eq_none_iff {m : Program α} {name : String} :
    m.find? name = none ↔ ∀ v, m.given? v ≠ some name := by
  rw [find?, Array.findIdx?_eq_none_iff]
  constructor
  · intro nobody v given
    rcases Option.bind_eq_some_iff.mp given with ⟨w, hw, named⟩
    have other := nobody w (Array.mem_of_getElem? hw)
    rw [named, beq_self_eq_true] at other
    cases other
  · intro nobody w hw
    rcases Array.mem_iff_getElem?.mp hw with ⟨v, hv⟩
    refine beq_eq_false_iff_ne.mpr fun named => nobody v ?_
    rw [given?, hv]
    exact named

theorem given?_of_find? {m : Program α} {name : String} {v : ℕ} (h : m.find? name = some v) :
    m.given? v = some name := by
  rcases Array.findIdx?_eq_some_iff_getElem.mp h with ⟨hv, named, -⟩
  rw [given?, Array.getElem?_eq_getElem hv]
  exact beq_iff_eq.mp named

theorem Distinct.find?_eq_some_iff {m : Program α} (h : m.Distinct) {name : String} {v : ℕ} :
    m.find? name = some v ↔ m.given? v = some name := by
  refine ⟨given?_of_find?, fun given => ?_⟩
  cases found : m.find? name with
  | none => exact absurd given (find?_eq_none_iff.mp found v)
  | some w => rw [h w v name (given?_of_find? found) given]

/-- A variable is added unless a variable carries its name already, and that is the only
error. -/
theorem ends_addVariable (w : Variable α) (m : Program α) : Ends (addVariable w) m fun r t =>
    (∃ name v, w.name = some name ∧ m.given? v = some name ∧
      r = .error (.duplicateVariable name) ∧ t = m) ∨
    ((∀ name, w.name = some name → ∀ v, m.given? v ≠ some name) ∧
      r = .ok m.vars.size ∧ t = { m with vars := m.vars.push w }) := by
  have added : Ends (do set { m with vars := m.vars.push w }; pure m.vars.size :
      ProgramM α ℕ) m fun r t => r = .ok m.vars.size ∧ t = { m with vars := m.vars.push w } :=
    ⟨rfl, rfl⟩
  unfold addVariable
  refine ends_get_bind.mpr ?_
  cases named : w.name with
  | none =>
    exact added.mono fun r t h => .inr ⟨fun name given => (by cases given), h⟩
  | some name =>
    dsimp only
    cases found : m.find? name with
    | none =>
      refine added.mono fun r t h => .inr ⟨fun name' same => ?_, h⟩
      obtain rfl := Option.some.inj same
      exact find?_eq_none_iff.mp found
    | some v => exact .inl ⟨name, v, rfl, given?_of_find? found, rfl, rfl⟩

theorem Distinct.push {m : Program α} (h : m.Distinct) {w : Variable α}
    (fresh : ∀ name, w.name = some name → ∀ v, m.given? v ≠ some name) :
    Distinct { m with vars := m.vars.push w } := by
  intro v v' name hv hv'
  rw [given?_push] at hv hv'
  split at hv
  case isTrue last =>
    split at hv'
    case isTrue last' => rw [last, last']
    case isFalse => exact absurd hv' (fresh name hv v')
  case isFalse =>
    split at hv'
    case isTrue => exact absurd hv (fresh name hv' v)
    case isFalse => exact h v v' name hv hv'

/-! ## Programs that calls lead to -/

/-- Calls, failed ones included, lead to the program, and the names that they gave are plain. -/
inductive Collected [Scalar α] : Program α → Prop
  | empty : Collected .empty
  | addContinuous {m : Program α} (h : Collected m) (lower upper : α) {name : Option String}
      (plain : ∀ n ∈ name, IsPlain n) :
      Collected ((Program.addContinuous lower upper name).run.run m).2
  | addBinary {m : Program α} (h : Collected m) {name : Option String}
      (plain : ∀ n ∈ name, IsPlain n) : Collected ((Program.addBinary name).run.run m).2
  | constrain {m : Program α} (h : Collected m) (expr : LinearExpr α) (sense : Sense) (rhs : α)
      (isLazy : Bool) : Collected ((Program.constrain expr sense rhs isLazy).run.run m).2
  | withObjective {m : Program α} (h : Collected m) (direction : Direction)
      (expr : LinearExpr α) : Collected (m.withObjective direction expr)

/-- What calls keep: given names are plain, and no two are the same. -/
structure Labelled (m : Program α) : Prop where
  distinct : m.Distinct
  plain : ∀ v name, m.given? v = some name → IsPlain name

theorem keeps_labelled_addVariable {w : Variable α} (plain : ∀ n ∈ w.name, IsPlain n) :
    Keeps (Labelled (α := α)) (addVariable w) := by
  intro m h
  refine (ends_addVariable w m).mono fun r t he => ?_
  rcases he with ⟨_, _, _, _, _, rfl⟩ | ⟨fresh, -, rfl⟩
  · exact h
  · refine ⟨h.distinct.push fresh, fun v name given => ?_⟩
    rw [given?_push] at given
    split at given
    · exact plain name given
    · exact h.plain v name given

theorem Collected.labelled [Scalar α] {m : Program α} (h : m.Collected) : m.Labelled := by
  induction h with
  | empty =>
    refine ⟨fun v w name hv => ?_, fun v name hv => ?_⟩ <;>
    · rw [given?_empty] at hv
      cases hv
  | addContinuous _ _ _ plain ih => exact keeps_labelled_addVariable plain _ ih
  | addBinary _ plain ih => exact keeps_labelled_addVariable plain _ ih
  | constrain _ _ _ _ _ ih => exact ⟨ih.distinct, ih.plain⟩
  | withObjective _ _ _ ih => exact ⟨ih.distinct, ih.plain⟩

/-! ## Names by number -/

/-- A text reads as `v` and a number. -/
def Numbers (name : String) (v : ℕ) : Prop :=
  ∃ digits, name.toList = 'v' :: digits ∧ natural? digits = some v

theorem numbers_iff {name : String} {v : ℕ} (number : ℕ) (h : name = "v" ++ number.repr) :
    Numbers name v ↔ v = number := by
  have letters : name.toList = 'v' :: number.repr.toList := by
    rw [h, String.toList_append]
    rfl
  constructor
  · rintro ⟨digits, name, read⟩
    obtain rfl := List.tail_eq_of_cons_eq (letters.symm.trans name)
    exact Option.some.inj (read.symm.trans (natural?_repr number))
  · rintro rfl
    exact ⟨_, letters, natural?_repr v⟩

theorem number_injective {v w : ℕ} (h : "v" ++ v.repr = "v" ++ w.repr) : v = w :=
  (numbers_iff w h).mp ((numbers_iff v rfl).mpr rfl)

theorem isPlain_number (v : ℕ) : IsPlain ("v" ++ v.repr) where
  field := by
    rw [String.toList_append]
    exact IsField.append (.of_check (by decide)) (isField_repr v).solid
  content := by
    rw [String.toList_append]
    intro comment
    cases comment

theorem numbered?_eq_some_iff {m : Program α} {name : String} {v : ℕ} :
    Solution.numbered? m name.toList = some v ↔ Numbers name v ∧ v < m.vars.size := by
  unfold Solution.numbered?
  split
  case h_1 digits letters =>
    rw [Option.filter_eq_some_iff, decide_eq_true_eq]
    refine and_congr_left fun _ => ⟨fun read => ⟨digits, letters, read⟩, ?_⟩
    rintro ⟨digits', letters', read⟩
    rw [letters] at letters'
    exact List.tail_eq_of_cons_eq letters' ▸ read
  case h_2 other =>
    refine iff_of_false (fun found => by cases found) ?_
    rintro ⟨⟨digits, letters, -⟩, -⟩
    exact other digits letters

/-! ## Which variable a name means -/

/-- The first variable was given the name that the second, to which none was given, goes by. -/
def Shadows (m : Program α) (w v : ℕ) : Prop :=
  v < m.vars.size ∧ m.given? v = none ∧ m.given? w = some ("v" ++ v.repr)

/-- What shadows a variable has a name, and is not shadowed itself. -/
theorem Shadows.free {m : Program α} {w v : ℕ} (shadows : m.Shadows w v) (u : ℕ) :
    ¬ m.Shadows u w := by
  intro above
  have carries := shadows.2.2
  rw [above.2.1] at carries
  cases carries

/-- The name is not that of a variable, but reads as the number of one. -/
def IsAlias (m : Program α) (name : String) (v : ℕ) : Prop :=
  (∀ w, m.given? w ≠ some name) ∧ Numbers name v ∧ m.exportName v ≠ name

/-- What a name in a solution file means: the variable that goes by it and is not shadowed, or the
one whose number it is read as. -/
def Means (m : Program α) (name : String) (v : ℕ) : Prop :=
  v < m.vars.size ∧ (m.exportName v = name ∧ (∀ w, ¬ m.Shadows w v) ∨ m.IsAlias name v)

/-- The names in exported files. -/
def exportNames (m : Program α) : List String := (List.range m.vars.size).map m.exportName

namespace Labelled

variable {m : Program α} (h : m.Labelled)

include h

theorem resolve?_eq_some_iff {name : String} {v : ℕ} :
    Solution.resolve? m name.toList = some v ↔ m.given? v = some name ∨
      (∀ w, m.given? w ≠ some name) ∧ Numbers name v ∧ v < m.vars.size := by
  rw [Solution.resolve?, String.ofList_toList, Option.or_eq_some_iff, h.distinct.find?_eq_some_iff,
    find?_eq_none_iff, numbered?_eq_some_iff]

theorem resolve?_iff {name : String} {v : ℕ} :
    Solution.resolve? m name.toList = some v ↔ m.Means name v := by
  rw [h.resolve?_eq_some_iff, Means]
  constructor
  · rintro (given | ⟨nobody, number, inside⟩)
    · refine ⟨lt_of_given? given, .inl ⟨exportName_of_given? given, fun w shadows => ?_⟩⟩
      rw [shadows.2.1] at given
      cases given
    · refine ⟨inside, ?_⟩
      by_cases same : m.exportName v = name
      · refine .inl ⟨same, fun w shadows => nobody w ?_⟩
        rw [shadows.2.2, ← same, exportName_of_unnamed shadows.2.1]
      · exact .inr ⟨nobody, number, same⟩
  · rintro ⟨inside, ⟨same, free⟩ | ⟨nobody, number, -⟩⟩
    · cases given : m.given? v with
      | some own => exact .inl (by rw [← same, exportName_of_given? given])
      | none =>
        rw [exportName_of_unnamed given] at same
        refine .inr ⟨fun w carries => free w ⟨inside, given, ?_⟩, ?_, inside⟩
        · rw [same, carries]
        · exact (numbers_iff v same.symm).mpr rfl
    · exact .inr ⟨nobody, number, inside⟩

theorem resolve?_exportName {v : ℕ} (inside : v < m.vars.size) (free : ∀ w, ¬ m.Shadows w v) :
    Solution.resolve? m (m.exportName v).toList = some v :=
  h.resolve?_iff.mpr ⟨inside, .inl ⟨rfl, free⟩⟩

theorem resolve?_of_shadows {w v : ℕ} (shadows : m.Shadows w v) :
    Solution.resolve? m (m.exportName v).toList = some w := by
  refine h.resolve?_eq_some_iff.mpr (.inl ?_)
  rw [shadows.2.2, exportName_of_unnamed shadows.2.1]

theorem isSome_resolve? {v : ℕ} (inside : v < m.vars.size) :
    (Solution.resolve? m (m.exportName v).toList).isSome = true := by
  by_cases shadowed : ∃ w, m.Shadows w v
  · rcases shadowed with ⟨w, shadows⟩
    rw [h.resolve?_of_shadows shadows]
    rfl
  · rw [h.resolve?_exportName inside (not_exists.mp shadowed)]
    rfl

theorem isPlain_exportName (v : ℕ) : IsPlain (m.exportName v) := by
  cases given : m.given? v with
  | some name => exact exportName_of_given? given ▸ h.plain v name given
  | none => exact exportName_of_unnamed given ▸ isPlain_number v

theorem nodup_exportNames_iff : m.exportNames.Nodup ↔ ∀ w v, ¬ m.Shadows w v := by
  rw [exportNames, List.nodup_map_iff_inj_on List.nodup_range]
  constructor
  · intro injective w v shadows
    have inside := lt_of_given? shadows.2.2
    have same : w = v := by
      refine injective w (List.mem_range.mpr inside) v (List.mem_range.mpr shadows.1) ?_
      rw [exportName_of_given? shadows.2.2, exportName_of_unnamed shadows.2.1]
    have unnamed := shadows.2.1
    rw [← same, shadows.2.2] at unnamed
    cases unnamed
  · intro free v hv w hw same
    have meant := h.resolve?_exportName (List.mem_range.mp hv) fun u => free u v
    rw [same, h.resolve?_exportName (List.mem_range.mp hw) fun u => free u w] at meant
    exact (Option.some.inj meant).symm

end Labelled

end Program

/-! ## Reading a solution back -/

namespace Solution

open Program

variable {m : Program α} {s : Solution α}

section Meaning

variable (h : m.Labelled)

include h

theorem meaning_eq {v : ℕ} (inside : v < m.vars.size) (free : ∀ w, ¬ m.Shadows w v) :
    meaning m v = v := by
  rw [meaning, h.resolve?_exportName inside free, Option.getD_some]

theorem meaning_of_shadows {w v : ℕ} (shadows : m.Shadows w v) : meaning m v = w := by
  rw [meaning, h.resolve?_of_shadows shadows, Option.getD_some]

/-- A name means its own variable or the one that shadows it. -/
theorem meaning_cases {v i : ℕ} (inside : v < m.vars.size) (meant : meaning m v = i) :
    m.Shadows i v ∨ v = i ∧ ∀ w, ¬ m.Shadows w v := by
  by_cases shadowed : ∃ w, m.Shadows w v
  · rcases shadowed with ⟨w, shadows⟩
    rw [meaning_of_shadows h shadows] at meant
    exact .inl (meant ▸ shadows)
  · have free := not_exists.mp shadowed
    rw [meaning_eq h inside free] at meant
    exact .inr ⟨meant, free⟩

variable [Scalar α] (size : s.values.size = m.vars.size)

include size

/-- A shadowed variable is read as zero. -/
theorem read_of_shadowed {w v : ℕ} (shadows : m.Shadows w v) :
    (placed (meaning m) s.values (.replicate m.vars.size 0)).getD v 0 = 0 := by
  rw [getD_placed_of_notMem]
  · rw [Array.getD_eq_getD_getElem?, Array.getElem?_replicate, if_pos shadows.1, Option.getD_some]
  · intro u hu meant
    rcases meaning_cases h (size ▸ hu) meant with above | ⟨rfl, free⟩
    · exact above.free w shadows
    · exact free w shadows

/-- A variable that shadows a later one is read as that. -/
theorem read_of_shadows {w v : ℕ} (shadows : m.Shadows w v) (later : w < v) :
    (placed (meaning m) s.values (.replicate m.vars.size 0)).getD w 0 = s.value v := by
  have hv : v < s.values.size := size ▸ shadows.1
  rw [getD_placed_of_last hv (meaning_of_shadows h shadows) ?_
    (by rw [Array.size_replicate]; exact lt_of_given? shadows.2.2), value, Array.getD, dif_pos hv]
  · rfl
  · intro u hu inside meant
    rcases meaning_cases h (size ▸ inside) meant with again | ⟨rfl, -⟩
    · have same := number_injective (Option.some.inj (again.2.2.symm.trans shadows.2.2))
      omega
    · omega

/-- A variable that is not shadowed, and shadows no later one, is read as itself. -/
theorem read_of_free {v : ℕ} (inside : v < m.vars.size) (free : ∀ w, ¬ m.Shadows w v)
    (last : ∀ u, m.Shadows v u → u < v) :
    (placed (meaning m) s.values (.replicate m.vars.size 0)).getD v 0 = s.value v := by
  have hv : v < s.values.size := size ▸ inside
  rw [getD_placed_of_last hv (meaning_eq h inside free) ?_
    (by rwa [Array.size_replicate]), value, Array.getD, dif_pos hv]
  · rfl
  · intro u hu below meant
    rcases meaning_cases h (size ▸ below) meant with shadows | ⟨rfl, -⟩
    · exact absurd (last u shadows) (by omega)
    · omega

/-- What is read is the solution where every shadowed variable is zero, and so is what shadows a
later one. -/
theorem placed_eq_iff : placed (meaning m) s.values (.replicate m.vars.size 0) = s.values ↔
    ∀ w v, m.Shadows w v → s.value v = 0 ∧ (w < v → s.value w = 0) := by
  constructor
  · intro same w v shadows
    have zero := read_of_shadowed h size shadows
    rw [same] at zero
    refine ⟨zero, fun later => ?_⟩
    have read := read_of_shadows h size shadows later
    rw [same] at read
    exact read.trans zero
  · intro zero
    refine Array.ext (by rw [size_placed, Array.size_replicate, size]) fun v hv hv' => ?_
    have inside : v < m.vars.size := size ▸ hv'
    suffices read : (placed (meaning m) s.values (.replicate m.vars.size 0)).getD v 0 =
        s.value v by
      rwa [value, Array.getD, dif_pos hv, Array.getD, dif_pos hv'] at read
    by_cases shadowed : ∃ w, m.Shadows w v
    · rcases shadowed with ⟨w, shadows⟩
      rw [read_of_shadowed h size shadows, (zero w v shadows).1]
    · by_cases shades : ∃ u, m.Shadows v u ∧ v < u
      · rcases shades with ⟨u, shadows, later⟩
        rw [read_of_shadows h size shadows later, (zero v u shadows).1,
          (zero v u shadows).2 later]
      · refine read_of_free h size inside (not_exists.mp shadowed) fun u shadows => ?_
        have other : u ≠ v := by
          rintro rfl
          exact shadows.free u shadows
        have earlier : ¬ v < u := fun later => shades ⟨u, shadows, later⟩
        omega

end Meaning

/-- A line of two fields, the second of which is a number, assigns this to the variable that the
first means. -/
theorem assignment_cases [Numeral α] (h : m.Labelled) {name value : String}
    (first : IsField name.toList) (second : IsField value.toList) {x : α}
    (reads : read? value.toList = some x) (number : ℕ) :
    (∀ v, assignment m number (name.toList ++ ' ' :: value.toList) = .ok (v, x) ↔
      m.Means name v) ∧
    (assignment m number (name.toList ++ ' ' :: value.toList) = .error (.unknownVariable name) ↔
      ∀ v, ¬ m.Means name v) := by
  simp only [← h.resolve?_iff, ← Option.eq_none_iff_forall_ne_some]
  rw [assignment, fields_pair first second]
  dsimp only
  rw [reads]
  dsimp only
  cases resolve? m name.toList with
  | some w => simp
  | none => simp

end Solution

/-- In the programs that calls make, giving plain names: which names in solution files mean which
variables, and that the others are unknown; when the names in exported files differ; and when the
text of a solution, whose values read back, gives its values again. -/
theorem reads_back_iff {m : Program Float} (h : m.Collected) :
    (∀ name value : String, IsField name.toList → IsField value.toList →
      ∀ x, read? value.toList = some x → ∀ number,
        (∀ v, Solution.assignment m number (name.toList ++ ' ' :: value.toList) = .ok (v, x) ↔
          m.Means name v) ∧
        (Solution.assignment m number (name.toList ++ ' ' :: value.toList) =
          .error (.unknownVariable name) ↔ ∀ v, ¬ m.Means name v)) ∧
    (m.exportNames.Nodup ↔ ∀ w v, ¬ m.Shadows w v) ∧
    ∀ s : Solution Float, s.values.size = m.vars.size →
      (∀ x ∈ s.values, read? (write x).toList = some x) →
      ∃ t, Solution.ofText m (Solution.text m s) = .ok t ∧
        (t.values = s.values ↔
          ∀ w v, m.Shadows w v → s.value v = 0 ∧ (w < v → s.value w = 0)) := by
  have labelled := h.labelled
  refine ⟨fun name value first second x reads number =>
    Solution.assignment_cases labelled first second reads number,
    labelled.nodup_exportNames_iff, fun s size reads => ?_⟩
  rcases Solution.ofText_text (fun v _ => labelled.isPlain_exportName v) legible_float
    (fun v hv => labelled.isSome_resolve? hv) size reads with ⟨t, run, values⟩
  refine ⟨t, run, ?_⟩
  rw [values]
  exact Solution.placed_eq_iff labelled size

/-- The first of two variables has the name that the second goes by. -/
def clash : Program Float :=
  ((Program.addBinary none).run.run ((Program.addBinary (some "v1")).run.run .empty).2).2

/-- Both values go to the first variable, and the later one stays. -/
theorem reads_back_clash : clash.Collected ∧ clash.exportNames = ["v1", "v1"] ∧
    ∃ t, Solution.ofText clash (Solution.text clash ⟨#[1, 0], 1⟩) = .ok t ∧
      t.values ≠ #[1, 0] := by
  have collected : clash.Collected := by
    refine .addBinary (.addBinary .empty fun n hn => ?_) fun n hn => by cases hn
    obtain rfl := Option.mem_some_iff.mp hn
    exact ⟨.of_check (by decide), by decide⟩
  have shadows : clash.Shadows 0 1 :=
    ⟨by decide +kernel, by decide +kernel, by decide +kernel⟩
  rcases (reads_back_iff collected).2.2 ⟨#[1, 0], 1⟩ (by decide +kernel)
    (by decide +kernel) with ⟨t, run, same⟩
  refine ⟨collected, by decide +kernel, t, run, fun equal => ?_⟩
  have zero : (1 : Float) = 0 := (same.mp equal 0 1 shadows).2 Nat.zero_lt_one
  exact absurd zero (by decide +kernel)

end Influence
