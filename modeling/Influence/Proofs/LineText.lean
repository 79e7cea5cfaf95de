import Mathlib.Data.Nat.Digits.Defs
import Influence.Number.Numeral
import Influence.Text.Blank

/-!
# Lines, fields and numerals as text

A field is a text without blanks.  What is written as fields behind one another, with a blank
between two of them and a line feed behind every line, is read as these lines (`lines_flatMap`) and
as these fields (`fields_pair`).  Natural numbers read back (`natural?_repr`), and in every layout a
double is written as one field (`isField_text`).
-/

namespace Influence

namespace Text

/-- A text that makes up one field. -/
structure IsField (cs : List Char) : Prop where
  nonempty : cs ≠ []
  solid : ∀ c ∈ cs, isBlank c = false

theorem isBlank_space : isBlank ' ' = true := rfl

theorem isBlank_lineFeed : isBlank '\n' = true := rfl

namespace IsField

variable {cs ds : List Char}

theorem solid_of_check (h : (cs.all fun c => !isBlank c) = true) : ∀ c ∈ cs, isBlank c = false := by
  intro c hc
  have solid := List.all_eq_true.mp h c hc
  rwa [Bool.not_eq_true'] at solid

theorem of_check (h : (!cs.isEmpty && cs.all fun c => !isBlank c) = true) : IsField cs where
  nonempty := by
    rintro rfl
    cases h
  solid := solid_of_check (Bool.and_eq_true_iff.mp h).2

theorem append (h : IsField cs) (h' : ∀ d ∈ ds, isBlank d = false) : IsField (cs ++ ds) where
  nonempty := List.append_ne_nil_of_left_ne_nil h.nonempty ds
  solid := by
    intro c hc
    rcases List.mem_append.mp hc with hc | hc
    · exact h.solid c hc
    · exact h' c hc

theorem lineFeed_notMem (h : IsField cs) : '\n' ∉ cs := by
  intro hc
  have solid := h.solid _ hc
  rw [isBlank_lineFeed] at solid
  cases solid

end IsField

/-! ## Lines -/

theorem lines_append {l : List Char} (h : '\n' ∉ l) (rest : List Char) :
    lines (l ++ '\n' :: rest) = l :: lines rest := by
  induction l with
  | nil =>
    rw [List.nil_append, lines, if_pos rfl]
  | cons c l ih =>
    rw [List.mem_cons, not_or] at h
    rw [List.cons_append, lines, if_neg (Ne.symm h.1), ih h.2]

/-- Lines that each end in a line feed. -/
theorem lines_flatMap {ls : List (List Char)} (h : ∀ l ∈ ls, '\n' ∉ l) :
    lines (ls.flatMap fun l => l ++ ['\n']) = ls := by
  induction ls with
  | nil => rfl
  | cons l ls ih =>
    rcases List.forall_mem_cons.mp h with ⟨first, rest⟩
    rw [List.flatMap_cons, List.append_assoc, List.singleton_append, lines_append first, ih rest]

/-! ## Fields -/

section Runs

variable {isBreak : Char → Bool} {w : List Char}

theorem runs_cons_break {b : Char} (hb : isBreak b = true) (rest : List Char) :
    runs isBreak (b :: rest) = runs isBreak rest := by
  rw [runs.eq_def isBreak (b :: rest)]
  exact if_pos hb

theorem runs_singleton {c : Char} (hc : isBreak c = false) : runs isBreak [c] = [[c]] := by
  rw [runs.eq_def isBreak [c]]
  exact if_neg (by rw [hc]; exact Bool.false_ne_true)

/-- A character in front of a run belongs to it, unless there is a break between the two. -/
theorem runs_cons_cons {c d : Char} (hc : isBreak c = false) (cs : List Char) :
    runs isBreak (c :: d :: cs) = if isBreak d then [c] :: runs isBreak (d :: cs) else
      match runs isBreak (d :: cs) with
      | r :: rs => (c :: r) :: rs
      | [] => [[c]] := by
  rw [runs.eq_def isBreak (c :: d :: cs)]
  refine (if_neg (by rw [hc]; exact Bool.false_ne_true)).trans ?_
  cases runs isBreak (d :: cs) with
  | nil => cases isBreak d <;> rfl
  | cons r rs => rfl

theorem runs_solid (nonempty : w ≠ []) (solid : ∀ c ∈ w, isBreak c = false) :
    runs isBreak w = [w] := by
  induction w with
  | nil => exact absurd rfl nonempty
  | cons c w ih =>
    rcases List.forall_mem_cons.mp solid with ⟨own, others⟩
    cases w with
    | nil => exact runs_singleton own
    | cons d w =>
      rw [runs_cons_cons own, ih (List.cons_ne_nil d w) others, others d List.mem_cons_self]
      rfl

/-- A run ends at the first break. -/
theorem runs_append (nonempty : w ≠ []) (solid : ∀ c ∈ w, isBreak c = false) {b : Char}
    (hb : isBreak b = true) (rest : List Char) :
    runs isBreak (w ++ b :: rest) = w :: runs isBreak rest := by
  induction w with
  | nil => exact absurd rfl nonempty
  | cons c w ih =>
    rcases List.forall_mem_cons.mp solid with ⟨own, others⟩
    cases w with
    | nil =>
      rw [List.singleton_append, runs_cons_cons own, if_pos hb, runs_cons_break hb]
    | cons d w =>
      have behind := ih (List.cons_ne_nil d w) others
      rw [List.cons_append] at behind
      rw [List.cons_append, List.cons_append, runs_cons_cons own, behind,
        others d List.mem_cons_self]
      rfl

end Runs

/-- Two fields with a blank between them. -/
theorem fields_pair {name value : List Char} (hn : IsField name) (hv : IsField value) :
    fields (name ++ ' ' :: value) = [name, value] := by
  rw [fields, runs_append hn.nonempty hn.solid isBlank_space, runs_solid hv.nonempty hv.solid]

theorem dropWhile_isBlank {c : Char} (h : isBlank c = false) (cs : List Char) :
    (c :: cs).dropWhile isBlank = c :: cs := by
  rw [List.dropWhile_cons, h]
  rfl

/-- What starts with a field and ends with one has nothing to trim. -/
theorem trim_eq_self {front back : List Char} (hf : IsField front) (hb : IsField back)
    (middle : List Char) : trim (front ++ middle ++ back) = front ++ middle ++ back := by
  rcases List.exists_cons_of_ne_nil hf.nonempty with ⟨c, front, rfl⟩
  rcases List.eq_nil_or_concat back with rfl | ⟨back, d, rfl⟩
  · exact absurd rfl hb.nonempty
  · have first := hf.solid c List.mem_cons_self
    have last := hb.solid d (by simp)
    have reversed : (c :: front ++ middle ++ back.concat d).reverse =
        d :: (c :: front ++ middle ++ back).reverse := by
      rw [List.concat_eq_append, ← List.append_assoc, List.reverse_concat]
    have start : trimStart (c :: front ++ middle ++ back.concat d) =
        c :: front ++ middle ++ back.concat d := dropWhile_isBlank first _
    rw [trim, start, reversed, dropWhile_isBlank last, ← reversed, List.reverse_reverse]

end Text

open Text

/-! ## Natural numbers -/

theorem isBlank_of_isDigit {c : Char} (h : c.isDigit = true) : isBlank c = false := by
  have bounds : 48 ≤ c.toNat ∧ c.toNat ≤ 57 := by
    rw [Char.isDigit, Bool.and_eq_true, decide_eq_true_eq, decide_eq_true_eq] at h
    exact h
  simp only [isBlank, Bool.or_eq_false_iff, Bool.and_eq_false_iff, decide_eq_false_iff_not,
    beq_eq_false_iff_ne]
  omega

theorem toList_repr (n : ℕ) : n.repr.toList = Nat.toDigits 10 n := by
  rw [Nat.repr_eq_ofList_toDigits, String.toList_ofList]

theorem isDigit_of_mem_repr {n : ℕ} {c : Char} (h : c ∈ n.repr.toList) : c.isDigit = true := by
  rw [toList_repr] at h
  exact Nat.isDigit_of_mem_toDigits (by decide) le_rfl h

theorem isField_repr (n : ℕ) : IsField n.repr.toList where
  nonempty := by
    rw [toList_repr]
    exact Nat.toDigits_ne_nil
  solid c hc := isBlank_of_isDigit (isDigit_of_mem_repr hc)

namespace Numeral

theorem digitsValue_repr (n : ℕ) : digitsValue 0 n.repr.toList = n := by
  rw [toList_repr]
  exact Nat.ofDigitChars_ten_toDigits

theorem natural?_repr (n : ℕ) : natural? n.repr.toList = some n := by
  have digits : n.repr.toList.all Char.isDigit = true :=
    List.all_eq_true.mpr fun c hc => isDigit_of_mem_repr hc
  have filled : n.repr.toList.isEmpty = false := by
    rw [List.isEmpty_eq_false_iff]
    exact (isField_repr n).nonempty
  unfold natural?
  split
  case h_1 ds eq =>
    -- A numeral does not start with a sign.
    rw [eq] at digits
    cases digits
  case h_2 =>
    dsimp only
    rw [filled, digits, digitsValue_repr]
    rfl

/-! ## Doubles -/

/-- Every value is written as one field. -/
def Legible (α : Type) [Numeral α] : Prop := ∀ x : α, IsField (Numeral.write x).toList

end Numeral

namespace Layout

private theorem isField_zeros (n : ℕ) : ∀ c ∈ List.replicate n '0', isBlank c = false := by
  intro c hc
  rw [List.eq_of_mem_replicate hc]
  rfl

theorem isField_positionalText (keepsFraction : Bool) {digits : String}
    (h : IsField digits.toList) (point : ℤ) :
    IsField (positionalText keepsFraction digits point).toList := by
  unfold positionalText
  dsimp only
  split
  · have zero : IsField "0.".toList := .of_check (by decide)
    have gap : ∀ c ∈ (String.ofList (List.replicate point.natAbs '0')).toList,
        isBlank c = false := by
      rw [String.toList_ofList]
      exact isField_zeros _
    rw [String.toList_append, String.toList_append]
    exact (zero.append gap).append h.solid
  · split
    · rw [String.toList_append, String.toList_append, String.toList_ofList]
      refine (h.append (isField_zeros _)).append ?_
      cases keepsFraction <;> exact IsField.solid_of_check (by decide)
    · rw [String.toList_append, String.toList_append, String.toList_ofList]
      have whole : ∀ c ∈ digits.toList.take point.toNat, isBlank c = false :=
        fun c hc => h.solid c (List.mem_of_mem_take hc)
      refine ⟨?_, ?_⟩
      · simp
      · intro c hc
        rcases List.mem_append.mp hc with hc | hc
        · rcases List.mem_append.mp hc with hc | hc
          · exact whole c hc
          · rw [show c = '.' by simpa using hc]
            rfl
        · rw [String.toList_ofList] at hc
          exact h.solid c (List.mem_of_mem_drop hc)

theorem isField_exponentText (signsExponent : Bool) {digits : String}
    (h : IsField digits.toList) (point : ℤ) :
    IsField (exponentText signsExponent digits point).toList := by
  have sign : (if point - 1 < 0 then "-" else if signsExponent then "+" else "") ∈
      ["-", "+", ""] := by
    split
    · decide
    · cases signsExponent <;> decide
  unfold exponentText
  dsimp only
  generalize (if point - 1 < 0 then "-" else if signsExponent then "+" else "") = t at sign ⊢
  have exponent : ∀ c ∈ ("e" ++ (t ++ toString (point - 1).natAbs)).toList, isBlank c = false := by
    have marked : ∀ t ∈ ["-", "+", ""], (t.toList.all fun c => !isBlank c) = true := by decide
    intro c hc
    rw [String.toList_append, String.toList_append] at hc
    rcases List.mem_append.mp hc with hc | hc
    · rw [List.mem_singleton.mp hc]
      rfl
    · rcases List.mem_append.mp hc with hc | hc
      · exact IsField.solid_of_check (marked t sign) c hc
      · exact (isField_repr _).solid c hc
  rw [String.append_assoc, String.append_assoc, String.toList_append]
  refine IsField.append ?_ exponent
  have solid := h.solid
  split
  case h_1 empty => exact absurd empty h.nonempty
  case h_2 d single =>
    rw [String.toList_ofList, ← single]
    exact h
  case h_3 d ds _ several =>
    rw [several] at solid
    rw [String.toList_ofList]
    refine ⟨List.cons_ne_nil _ _, ?_⟩
    intro c hc
    rcases List.mem_cons.mp hc with rfl | hc
    · exact solid c List.mem_cons_self
    · rcases List.mem_cons.mp hc with rfl | hc
      · rfl
      · exact solid c (List.mem_cons_of_mem _ hc)

theorem isField_decimal (l : Layout) (d : Decimal) : IsField (l.decimal d).toList := by
  have digits : IsField (toString d.digits).toList := isField_repr d.digits
  unfold decimal
  split
  · cases l.keepsFraction <;> exact .of_check (by decide)
  · dsimp only
    apply iteInduction (motive := fun s : String => IsField s.toList)
    · intro _
      exact isField_positionalText _ digits d.point
    · intro _
      exact isField_exponentText _ digits d.point

theorem isField_text (l : Layout) (x : Float) : IsField (l.text x).toList := by
  have magnitude : IsField
      (if x.isFinite then l.decimal (Shortest.ofFloat l.tie x) else "inf").toList := by
    split
    · exact isField_decimal l _
    · exact .of_check (by decide)
  unfold text
  split
  · exact .of_check (by decide)
  · dsimp only
    split
    · rw [String.toList_append]
      exact IsField.append (.of_check (by decide)) magnitude.solid
    · exact magnitude

end Layout

theorem Numeral.legible_float : Numeral.Legible Float := Layout.isField_text .plain

end Influence
