import Influence.Proofs.LineText
import Influence.Proofs.RoundingIntervals

/-!
# The text of a double determines it

A decimal magnitude written positionally stands for its value (`isPositional_decimal`), and digits
with a point among them stand for one value only (`IsPositional.unique`).  With the shortest digits
determining the magnitude of a double, and the sign in front, no two doubles have the same text
(`text_injective`).
-/

namespace Influence

namespace Numeral

/-! ## Reading digits -/

theorem digitsValue_append (acc : ℕ) (ds es : List Char) :
    digitsValue acc (ds ++ es) = digitsValue (digitsValue acc ds) es :=
  List.foldl_append

theorem digitsValue_zeros (acc k : ℕ) :
    digitsValue acc (List.replicate k '0') = acc * 10 ^ k := by
  induction k generalizing acc with
  | zero => exact (Nat.mul_one acc).symm
  | succ k ih =>
    have first : digitsValue acc ('0' :: List.replicate k '0') =
        digitsValue (10 * acc) (List.replicate k '0') := rfl
    rw [List.replicate_succ, first, ih, Nat.pow_succ]
    ring

variable {whole fraction : List Char}

theorem takeSign_of_isDigit {c : Char} (h : c.isDigit = true) (cs : List Char) :
    takeSign (c :: cs) = (false, c :: cs) := by
  unfold takeSign
  split
  case h_1 minus =>
    obtain ⟨rfl, -⟩ := List.cons.inj minus
    cases h
  case h_2 plus =>
    obtain ⟨rfl, -⟩ := List.cons.inj plus
    cases h
  case h_3 => rfl

theorem signed?_whole (nonempty : whole ≠ []) (digits : ∀ c ∈ whole, c.isDigit = true) :
    signed? whole = some ⟨false, digitsValue 0 whole, 0⟩ := by
  obtain ⟨c, cs, rfl⟩ := List.exists_cons_of_ne_nil nonempty
  have taken := List.takeWhile_eq_self_iff.mpr digits
  have left := List.dropWhile_eq_nil_iff.mpr digits
  unfold signed?
  rw [takeSign_of_isDigit (digits c List.mem_cons_self)]
  dsimp only
  rw [taken, left]
  rfl

theorem signed?_point (nonempty : whole ≠ []) (digits : ∀ c ∈ whole, c.isDigit = true)
    (digits' : ∀ c ∈ fraction, c.isDigit = true) : signed? (whole ++ '.' :: fraction) =
      some ⟨false, digitsValue 0 (whole ++ fraction), -fraction.length⟩ := by
  have taken : (whole ++ '.' :: fraction).takeWhile Char.isDigit = whole := by
    rw [List.takeWhile_append_of_pos digits, List.takeWhile_cons_of_neg (by decide),
      List.append_nil]
  have left : (whole ++ '.' :: fraction).dropWhile Char.isDigit = '.' :: fraction := by
    rw [List.dropWhile_append_of_pos digits, List.dropWhile_cons_of_neg (by decide)]
  obtain ⟨c, cs, rfl⟩ := List.exists_cons_of_ne_nil nonempty
  unfold signed?
  rw [List.cons_append] at taken left ⊢
  rw [takeSign_of_isDigit (digits c List.mem_cons_self)]
  dsimp only
  rw [taken, left]
  change (exponent? (fraction.dropWhile Char.isDigit)).map (fun e => (⟨false, digitsValue
    (digitsValue 0 (c :: cs)) (fraction.takeWhile Char.isDigit),
    e - (fraction.takeWhile Char.isDigit).length⟩ : Signed)) = _
  rw [List.takeWhile_eq_self_iff.mpr digits', List.dropWhile_eq_nil_iff.mpr digits',
    ← digitsValue_append, List.cons_append]
  simp [exponent?]

/-- Digits, perhaps with a point among them, that stand for a rational. -/
inductive IsPositional : List Char → ℚ → Prop where
  | whole {ds : List Char} (nonempty : ds ≠ []) (digits : ∀ c ∈ ds, c.isDigit = true) :
    IsPositional ds (digitsValue 0 ds)
  | point {ds es : List Char} (nonempty : ds ≠ []) (digits : ∀ c ∈ ds, c.isDigit = true)
    (digits' : ∀ c ∈ es, c.isDigit = true) :
    IsPositional (ds ++ '.' :: es) (digitsValue 0 (ds ++ es) * 10 ^ (-es.length : ℤ))

namespace IsPositional

variable {cs : List Char} {q q' : ℚ}

/-- They read back with this value. -/
theorem signed?_eq (h : IsPositional cs q) :
    ∃ r, signed? cs = some ⟨false, r⟩ ∧ r.value = q := by
  cases h with
  | whole nonempty digits =>
    refine ⟨_, signed?_whole nonempty digits, ?_⟩
    exact mul_one _
  | point nonempty digits digits' => exact ⟨_, signed?_point nonempty digits digits', rfl⟩

theorem unique (h : IsPositional cs q) (h' : IsPositional cs q') : q = q' := by
  obtain ⟨r, read, rfl⟩ := h.signed?_eq
  obtain ⟨r', read', rfl⟩ := h'.signed?_eq
  rw [read] at read'
  cases read'
  rfl

theorem starts (h : IsPositional cs q) : ∃ c ds, cs = c :: ds ∧ c.isDigit = true := by
  cases h with
  | whole nonempty digits =>
    obtain ⟨c, ds, rfl⟩ := List.exists_cons_of_ne_nil nonempty
    exact ⟨c, ds, rfl, digits c List.mem_cons_self⟩
  | point nonempty digits digits' =>
    obtain ⟨c, ds, rfl⟩ := List.exists_cons_of_ne_nil nonempty
    exact ⟨c, _, rfl, digits c List.mem_cons_self⟩

end IsPositional

end Numeral

namespace Layout

open Numeral

theorem isDigit_of_mem_zeros {k : ℕ} {c : Char} (h : c ∈ List.replicate k '0') :
    c.isDigit = true := by
  rw [List.eq_of_mem_replicate h]
  rfl

/-- Zeros between the point and the digits. -/
theorem isPositional_small (n k : ℕ) :
    IsPositional (['0'] ++ '.' :: (List.replicate k '0' ++ n.repr.toList))
      (n * 10 ^ (-(k + n.repr.length) : ℤ)) := by
  have fraction : ∀ c ∈ List.replicate k '0' ++ n.repr.toList, c.isDigit = true := by
    intro c hc
    obtain hc | hc := List.mem_append.mp hc
    · exact isDigit_of_mem_zeros hc
    · exact isDigit_of_mem_repr hc
  have zero : ∀ c ∈ ['0'], c.isDigit = true := List.forall_mem_singleton.mpr rfl
  have value : digitsValue 0 (['0'] ++ (List.replicate k '0' ++ n.repr.toList)) = n := by
    rw [digitsValue_append, digitsValue_append, digitsValue_zeros]
    change digitsValue (0 * _) _ = n
    rw [Nat.zero_mul, digitsValue_repr]
  have read := IsPositional.point (List.cons_ne_nil '0' []) zero fraction
  rwa [value, List.length_append, List.length_replicate, String.length_toList,
    Nat.cast_add] at read

/-- Zeros behind the digits. -/
theorem isPositional_large (n k : ℕ) :
    IsPositional (n.repr.toList ++ List.replicate k '0') (n * 10 ^ (k : ℤ)) := by
  have whole : ∀ c ∈ n.repr.toList ++ List.replicate k '0', c.isDigit = true := by
    intro c hc
    obtain hc | hc := List.mem_append.mp hc
    · exact isDigit_of_mem_repr hc
    · exact isDigit_of_mem_zeros hc
  have value : (digitsValue 0 (n.repr.toList ++ List.replicate k '0') : ℚ) =
      n * 10 ^ (k : ℤ) := by
    rw [digitsValue_append, digitsValue_repr, digitsValue_zeros, zpow_natCast]
    push_cast
    rfl
  have filled := (isField_repr n).nonempty
  have read := IsPositional.whole (List.append_ne_nil_of_left_ne_nil filled _) whole
  rwa [value] at read

/-- The point among the digits. -/
theorem isPositional_inside {n k : ℕ} (positive : k ≠ 0) :
    IsPositional (n.repr.toList.take k ++ '.' :: n.repr.toList.drop k)
      (n * 10 ^ (-(n.repr.length - k : ℕ) : ℤ)) := by
  have filled : n.repr.toList.take k ≠ [] := by
    rw [Ne, List.take_eq_nil_iff, not_or]
    exact ⟨positive, (isField_repr n).nonempty⟩
  have whole : ∀ c ∈ n.repr.toList.take k, c.isDigit = true :=
    fun c hc => isDigit_of_mem_repr (List.mem_of_mem_take hc)
  have fraction : ∀ c ∈ n.repr.toList.drop k, c.isDigit = true :=
    fun c hc => isDigit_of_mem_repr (List.mem_of_mem_drop hc)
  have read := IsPositional.point filled whole fraction
  rwa [List.take_append_drop, digitsValue_repr, List.length_drop, String.length_toList] at read

theorem isPositional_positionalText (n : ℕ) (point : ℤ) :
    IsPositional (positionalText false n.repr point).toList
      (n * 10 ^ (point - n.repr.length)) := by
  unfold positionalText
  dsimp only
  split
  case isTrue small =>
    have text : ("0." ++ String.ofList (List.replicate point.natAbs '0') ++ n.repr).toList =
        ['0'] ++ '.' :: (List.replicate point.natAbs '0' ++ n.repr.toList) := by
      simp [String.toList_append, String.toList_ofList]
    have exponent : point - n.repr.length = -(point.natAbs + n.repr.length : ℤ) := by omega
    rw [text, exponent]
    exact isPositional_small n point.natAbs
  case isFalse =>
    split
    case isTrue large =>
      obtain ⟨k, hk⟩ : ∃ k : ℕ, point - n.repr.length = k :=
        ⟨(point - n.repr.length).toNat, by omega⟩
      have text : (n.repr ++ String.ofList (List.replicate k '0') ++
          if false then ".0" else "").toList = n.repr.toList ++ List.replicate k '0' := by
        simp [String.toList_append, String.toList_ofList]
      rw [hk, Int.toNat_natCast, text]
      exact isPositional_large n k
    case isFalse inside =>
      have text : (String.ofList (n.repr.toList.take point.toNat) ++ "." ++
          String.ofList (n.repr.toList.drop point.toNat)).toList =
          n.repr.toList.take point.toNat ++ '.' :: n.repr.toList.drop point.toNat := by
        simp [String.toList_append, String.toList_ofList]
      have exponent : point - n.repr.length = -((n.repr.length - point.toNat : ℕ) : ℤ) := by
        omega
      rw [text, exponent]
      exact isPositional_inside (by omega)

/-- The plain text of a decimal magnitude stands for its value. -/
theorem isPositional_decimal (d : Decimal) :
    IsPositional (plain.decimal d).toList d.value := by
  unfold decimal
  split
  case isTrue zero =>
    have value : d.value = (digitsValue 0 ['0'] : ℕ) := by
      rw [Decimal.value, zero]
      exact (congrArg (· * _) Nat.cast_zero).trans (zero_mul _)
    rw [value]
    exact .whole (List.cons_ne_nil _ _) (List.forall_mem_singleton.mpr rfl)
  case isFalse nonzero =>
    have width : d.point - d.digits.repr.length = d.exponent := by
      rw [Decimal.point, Decimal.width, ← toList_repr, String.length_toList, add_sub_cancel_left]
    have written := isPositional_positionalText d.digits d.point
    rw [width] at written
    exact written

/-! ## Doubles -/

/-- What stands behind the sign. -/
def unsignedText (x : Float) : List Char :=
  if x.isFinite then (plain.decimal (Shortest.ofFloat plain.tie x)).toList else "inf".toList

theorem text_eq {x : Float} (number : x.isNaN = false) : (plain.text x).toList =
    if Binary64.isNegative x then '-' :: unsignedText x else unsignedText x := by
  unfold text unsignedText
  rw [number]
  cases x.isFinite <;> cases Binary64.isNegative x <;> simp

theorem starts_unsignedText (x : Float) :
    ∃ c cs, unsignedText x = c :: cs ∧ (c.isDigit = true ∨ c = 'i') := by
  unfold unsignedText
  split
  · obtain ⟨c, cs, eq, digit⟩ := (isPositional_decimal (Shortest.ofFloat plain.tie x)).starts
    exact ⟨c, cs, eq, .inl digit⟩
  · exact ⟨'i', _, rfl, .inr rfl⟩

/-- A finite double without a sign is written as digits. -/
theorem starts_text {x : Float} (finite : x.isFinite = true)
    (positive : Binary64.isNegative x = false) :
    ∃ c cs, (plain.text x).toList = c :: cs ∧ c.isDigit = true := by
  rw [text_eq (Binary64.isNaN_of_isFinite finite), positive, if_neg Bool.false_ne_true,
    unsignedText, if_pos finite]
  exact (isPositional_decimal _).starts

theorem unsignedText_ne (x : Float) (c : Char) (cs : List Char) (h : c = '-' ∨ c = 'N') :
    unsignedText x ≠ c :: cs := by
  obtain ⟨d, ds, eq, first⟩ := starts_unsignedText x
  intro same
  rw [eq] at same
  obtain ⟨rfl, -⟩ := List.cons.inj same
  obtain rfl | rfl := h <;> obtain digit | other := first
  · cases digit
  · cases other
  · cases digit
  · cases other

theorem eq_of_unsignedText {x y : Float} (hx : x.isNaN = false) (hy : y.isNaN = false)
    (negative : Binary64.isNegative x = Binary64.isNegative y)
    (h : unsignedText x = unsignedText y) : x = y := by
  have infinite (x : Float) : "inf".toList ≠
      (plain.decimal (Shortest.ofFloat plain.tie x)).toList := by
    obtain ⟨c, cs, eq, digit⟩ := (isPositional_decimal (Shortest.ofFloat plain.tie x)).starts
    rw [eq]
    intro same
    obtain ⟨rfl, -⟩ := List.cons.inj same
    cases digit
  unfold unsignedText at h
  cases fx : x.isFinite <;> cases fy : y.isFinite <;>
    simp only [fx, fy, if_true, if_false, Bool.false_eq_true] at h
  · exact Binary64.eq_of_isInfinite fx hx fy hy negative
  · exact absurd h (infinite y)
  · exact absurd h.symm (infinite x)
  · have value := isPositional_decimal (Shortest.ofFloat plain.tie x)
    rw [h] at value
    have same := value.unique (isPositional_decimal _)
    exact Binary64.eq_of_magnitude negative (Shortest.magnitude_eq_of_value_eq fx fy same)

theorem text_of_isNaN {x : Float} (h : x.isNaN = true) : (plain.text x).toList = "NaN".toList := by
  rw [text, if_pos h]

theorem text_ne_nan {x : Float} (number : x.isNaN = false) :
    (plain.text x).toList ≠ "NaN".toList := by
  rw [text_eq number]
  split
  · intro same
    cases (List.cons.inj same).1
  · exact unsignedText_ne x 'N' _ (.inr rfl)

/-- No two doubles have the same plain text. -/
theorem text_injective : Function.Injective plain.text := by
  intro x y h
  replace h : (plain.text x).toList = (plain.text y).toList := congrArg String.toList h
  cases hx : x.isNaN <;> cases hy : y.isNaN
  · rw [text_eq hx, text_eq hy] at h
    cases nx : Binary64.isNegative x <;> cases ny : Binary64.isNegative y <;>
      simp only [nx, ny, if_true, if_false, Bool.false_eq_true] at h
    · exact eq_of_unsignedText hx hy (nx.trans ny.symm) h
    · exact absurd h (unsignedText_ne x '-' _ (.inl rfl))
    · exact absurd h.symm (unsignedText_ne y '-' _ (.inl rfl))
    · exact eq_of_unsignedText hx hy (nx.trans ny.symm) (List.cons.inj h).2
  · rw [text_of_isNaN hy] at h
    exact absurd h (text_ne_nan hx)
  · rw [text_of_isNaN hx] at h
    exact absurd h.symm (text_ne_nan hy)
  · exact Binary64.eq_of_isNaN hx hy

end Layout

theorem Numeral.write_injective : Function.Injective (Numeral.write : Float → String) :=
  Layout.text_injective

end Influence
