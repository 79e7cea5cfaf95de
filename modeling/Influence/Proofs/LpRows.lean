import Influence.Program.LpText
import Influence.Proofs.NamedPrograms
import Influence.Proofs.NumberText
import Influence.Proofs.Unambiguous

/-!
# Rows of LP text

A row is a sequence of terms, or zero times some variable where there are none.  The terms can be
told from a row in front of a comparison or of the next section (`unambiguous_row`): signs stand
before magnitudes, a magnitude starts with a digit and a name does not, and a row that goes on in
the next line is indented there.
-/

namespace Influence

open Text Program Numeral

variable {α : Type}

namespace LpText

/-! ## Rows -/

/-- A row of the text: its terms, or zero times some variable where there are none. -/
inductive Row (α : Type) where
  | filler (name : Option String)
  | terms (ts : List (String × α))

/-- The terms of a row. -/
def Row.named : Row α → List (String × α)
  | filler _ => []
  | terms ts => ts

/-- The row that an expression is written as. -/
def row (m : Program α) (e : LinearExpr α) : Row α :=
  if e.isEmpty then .filler (if m.vars.isEmpty then none else some (m.exportName 0))
  else .terms (m.namedTerms e)

theorem named_row (m : Program α) (e : LinearExpr α) : (row m e).named = m.namedTerms e := by
  unfold row
  split
  case isTrue empty =>
    rw [namedTerms, List.isEmpty_iff.mp empty]
    rfl
  case isFalse => rfl

section

variable [Scalar α] [Numeral α]

/-- The number in front of a name. -/
def factor (c : α) : List Char :=
  if Scalar.abs c == 1 then [] else (write (Scalar.abs c)).toList ++ [' ']

theorem factor_append (c : α) (s : List Char) : factor c ++ s =
    if Scalar.abs c == 1 then s else (write (Scalar.abs c)).toList ++ ' ' :: s := by
  unfold factor
  split
  · rfl
  · rw [List.append_assoc]
    rfl

/-- A term behind `k` others. -/
def term (k : ℕ) (t : String × α) : List Char :=
  (if 0 < k ∧ k % perLine = 0 then ['\n', ' ', ' '] else []) ++
    ' ' :: (if t.2 < 0 then '-' else '+') :: ' ' :: (factor t.2 ++ t.1.toList)

/-- The characters of a row. -/
def Row.text : Row α → List Char
  | filler none => [' ', '0']
  | filler (some name) => ' ' :: '0' :: ' ' :: name.toList
  | terms ts => itemsText term 0 ts

theorem toList_termText (m : Program α) (v : ℕ) (c : α) : (termText m v c).toList =
    ' ' :: (if c < 0 then '-' else '+') :: ' ' :: (factor c ++ (m.exportName v).toList) := by
  unfold termText factor
  dsimp only
  split <;> split <;> simp [String.toList_append]

theorem toList_exprText (m : Program α) (e : LinearExpr α) :
    (exprText m e).toList = (row m e).text := by
  have items (ts : List (ℕ × α)) (k : ℕ) : (String.join ((ts.zipIdx k).map fun e =>
      (if 0 < e.2 ∧ e.2 % perLine = 0 then "\n  " else "") ++ termText m e.1.1 e.1.2)).toList =
      itemsText term k (ts.map fun t => (m.exportName t.1, t.2)) := by
    induction ts generalizing k with
    | nil => rfl
    | cons t ts ih =>
      rw [List.zipIdx_cons, List.map_cons, List.map_cons, itemsText, ← ih, String.toList_join,
        List.flatMap_cons, String.toList_join, String.toList_append, toList_termText, term]
      split <;> rfl
  unfold exprText row
  split
  · split
    · rfl
    · rw [String.toList_append]
      rfl
  · exact items e.terms 0

end

/-! ## Rows can be told apart -/

/-- A term with an identifier and a finite coefficient that is not zero. -/
structure IsTerm (t : String × Float) : Prop where
  name : IsIdentifier t.1
  finite : t.2.isFinite = true
  nonzero : (t.2 == Float.ofBits 0) = false

/-- A magnitude starts with a digit. -/
theorem starts_write_abs {c : Float} (finite : c.isFinite = true) :
    ∃ d ds, (write c.abs).toList = d :: ds ∧ d.isDigit = true :=
  Layout.starts_text (Binary64.isFinite_abs finite)
    (Binary64.fields_abs (Binary64.isNaN_of_isFinite finite)).1

theorem not_isDigit_of_isAlpha {c : Char} (h : c.isAlpha = true) : ¬ c.isDigit = true := by
  intro digit
  have range : 48 ≤ c.toNat ∧ c.toNat ≤ 57 := (Bool.and_eq_true_iff.mp digit).imp
    of_decide_eq_true of_decide_eq_true
  obtain upper | lower := Bool.or_eq_true_iff.mp h
  · have letter : 65 ≤ c.toNat ∧ c.toNat ≤ 90 := of_decide_eq_true upper
    omega
  · have letter : 97 ≤ c.toNat := of_decide_eq_true (Bool.and_eq_true_iff.mp lower).1
    omega

/-- The number in front of a name determines the magnitude of the coefficient. -/
theorem factor_cancel {c c' : Float} (hc : c.isFinite = true) (hc' : c'.isFinite = true)
    {name name' : String} (hn : IsIdentifier name) (hn' : IsIdentifier name') {r r' : List Char}
    (hr : StartsBlank r) (hr' : StartsBlank r')
    (same : factor c ++ (name.toList ++ r) = factor c' ++ (name'.toList ++ r')) :
    c.abs = c'.abs ∧ name = name' ∧ r = r' := by
  -- A name does not start as a number does.
  have apart {c : Float} (hc : c.isFinite = true) {name : String} (hn : IsIdentifier name)
      (r s : List Char) : name.toList ++ r ≠ (write c.abs).toList ++ s := by
    obtain ⟨d, ds, digits, digit⟩ := starts_write_abs hc
    obtain ⟨a, as, letters, letter⟩ := hn.letter
    rw [digits, letters]
    intro same
    obtain rfl : a = d := (List.cons.inj same).1
    exact not_isDigit_of_isAlpha letter digit
  rw [factor_append, factor_append] at same
  split at same
  case isTrue one =>
    split at same
    case isTrue one' =>
      obtain ⟨letters, rest⟩ := unambiguous_field hn.isField hn'.isField hr hr' same
      have unit := Binary64.eq_one_of_beq one
      have unit' := Binary64.eq_one_of_beq one'
      exact ⟨unit.trans unit'.symm, String.toList_injective letters, rest⟩
    case isFalse => exact absurd same (apart hc' hn _ _)
  case isFalse =>
    split at same
    case isTrue => exact absurd same.symm (apart hc hn' _ _)
    case isFalse =>
      obtain ⟨digits, names⟩ := unambiguous_field (legible_float c.abs) (legible_float c'.abs)
        ⟨' ', _, rfl, rfl⟩ ⟨' ', _, rfl, rfl⟩ same
      obtain ⟨letters, rest⟩ := unambiguous_field hn.isField hn'.isField hr hr'
        (List.cons.inj names).2
      exact ⟨write_injective (String.toList_injective digits), String.toList_injective letters,
        rest⟩

theorem unambiguous_term (k : ℕ) : Unambiguous (term k) IsTerm StartsBlank := by
  rintro ⟨name, c⟩ ⟨name', c'⟩ r r' ht ht' hr hr' same
  unfold term at same
  rw [List.append_assoc, List.append_assoc] at same
  have line := List.append_cancel_left same
  simp only [List.cons_append, List.append_assoc, List.cons.injEq, true_and] at line
  obtain ⟨side, rest⟩ := line
  obtain ⟨distance, rfl, rfl⟩ := factor_cancel ht.finite ht'.finite ht.name ht'.name hr hr' rest
  have below : c < Float.ofBits 0 ↔ c' < Float.ofBits 0 := by
    change (if c < Float.ofBits 0 then '-' else '+') = if c' < Float.ofBits 0 then '-' else '+'
      at side
    split at side <;> split at side <;> simp_all
  have equal := Binary64.eq_of_abs ht.finite ht'.finite ht.nonzero below distance
  exact ⟨Prod.ext rfl equal, rfl⟩

/-- What stands behind a row: the next section, or the comparison. -/
def EndsRow (r : List Char) : Prop :=
  ∃ c d s, r = c :: d :: s ∧ (c = '\n' ∧ d = 'S' ∨ c = ' ' ∧ d ∈ ['<', '>', '='])

theorem EndsRow.startsBlank {r : List Char} (h : EndsRow r) : StartsBlank r := by
  obtain ⟨c, d, s, rfl, ⟨rfl, -⟩ | ⟨rfl, -⟩⟩ := h
  · exact ⟨'\n', d :: s, rfl, rfl⟩
  · exact ⟨' ', d :: s, rfl, rfl⟩

/-- A row with names and coefficients as they should be. -/
def Row.Good : Row Float → Prop
  | filler name => ∀ n ∈ name, IsIdentifier n
  | terms ts => ts ≠ [] ∧ ∀ t ∈ ts, IsTerm t

theorem startsBlank_term (k : ℕ) (t : String × Float) (r : List Char) :
    StartsBlank (term k t ++ r) := by
  unfold term
  split
  · exact ⟨'\n', _, rfl, rfl⟩
  · exact ⟨' ', _, rfl, rfl⟩

theorem not_endsRow_term (k : ℕ) (t : String × Float) (r : List Char) :
    ¬ EndsRow (term k t ++ r) := by
  rintro ⟨c, d, s, same, ends⟩
  unfold term at same
  split at same
  · obtain ⟨rfl, rest⟩ := List.cons.inj same
    obtain ⟨rfl, -⟩ := List.cons.inj rest
    simp at ends
  · obtain ⟨rfl, rest⟩ := List.cons.inj same
    obtain ⟨rfl, -⟩ := List.cons.inj rest
    split at ends <;> simp at ends

theorem unambiguous_terms :
    Unambiguous (itemsText term 0) (fun ts => ∀ t ∈ ts, IsTerm t) EndsRow :=
  Unambiguous.items unambiguous_term (fun k t r _ => startsBlank_term k t r)
    (fun _ ends => ends.startsBlank) (fun k t r _ => not_endsRow_term k t r) 0

/-- Zero times a variable does not start as a term does. -/
theorem filler_ne_terms (name : Option String) {ts : List (String × Float)} (nonempty : ts ≠ [])
    (r s : List Char) : (Row.filler name : Row Float).text ++ r ≠ (Row.terms ts).text ++ s := by
  obtain ⟨t, ts, rfl⟩ := List.exists_cons_of_ne_nil nonempty
  obtain ⟨z, zero⟩ : ∃ z, (Row.filler name : Row Float).text ++ r = ' ' :: '0' :: z := by
    cases name with
    | none => exact ⟨_, rfl⟩
    | some name => exact ⟨_, rfl⟩
  intro same
  rw [zero] at same
  obtain ⟨zero, -⟩ := List.cons.inj (List.cons.inj same).2
  split at zero <;> cases zero

/-- A name does not start as what stands behind a row does. -/
theorem EndsRow.ne_name {r : List Char} (hr : EndsRow r) {name : String} (hn : IsIdentifier name)
    (s : List Char) : r ≠ ' ' :: (name.toList ++ s) := by
  obtain ⟨a, as, letters, letter⟩ := hn.letter
  obtain ⟨c, d, z, rfl, ⟨rfl, -⟩ | ⟨-, sign⟩⟩ := hr
  · intro same
    cases (List.cons.inj same).1
  · rw [letters]
    intro same
    obtain rfl := (List.cons.inj (List.cons.inj same).2).1
    simp only [List.mem_cons, List.not_mem_nil, or_false] at sign
    obtain rfl | rfl | rfl := sign <;> cases letter

/-- The terms of a row can be told from what stands behind it. -/
theorem unambiguous_row : Unambiguous Row.text Row.Good EndsRow := by
  intro b b' r r' good good' hr hr' same
  cases b with
  | filler name =>
    cases b' with
    | filler name' =>
      cases name with
      | none =>
        cases name' with
        | none => exact ⟨rfl, List.append_cancel_left same⟩
        | some name' =>
          exact absurd (List.cons.inj (List.cons.inj same).2).2 (hr.ne_name (good' name' rfl) r')
      | some name =>
        cases name' with
        | none =>
          exact absurd (List.cons.inj (List.cons.inj same).2).2.symm (hr'.ne_name (good name rfl) r)
        | some name' =>
          have rest := (List.cons.inj (List.cons.inj (List.cons.inj same).2).2).2
          obtain ⟨letters, behind⟩ := unambiguous_field (good name rfl).isField
            (good' name' rfl).isField hr.startsBlank hr'.startsBlank rest
          rw [String.toList_injective letters]
          exact ⟨rfl, behind⟩
    | terms ts' => exact absurd same (filler_ne_terms name good'.1 r r')
  | terms ts =>
    cases b' with
    | filler name' => exact absurd same.symm (filler_ne_terms name' good.1 r' r)
    | terms ts' =>
      obtain ⟨rfl, rest⟩ := unambiguous_terms good.2 good'.2 hr hr' same
      exact ⟨rfl, rest⟩

end LpText

end Influence
