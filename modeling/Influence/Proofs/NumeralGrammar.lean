import Influence.Proofs.NumberText

/-!
# The grammar of numerals

A numeral is a sign or none, and behind it a mantissa with an exponent or none, or else one of the
words for what is not finite, in any case (`IsNumeral`).  The texts that are read as doubles are
these and no others (`isSome_float?_iff`).  Whole numbers are digits, with a plus sign or without
(`natural?_eq_some_iff`).
-/

namespace Influence.Numeral

/-! ## Numerals -/

/-- Decimal digits, if any. -/
def Digits (ds : List Char) : Prop := ∀ c ∈ ds, c.isDigit = true

/-- One sign or none. -/
inductive IsSign : List Char → Prop where
  | none : IsSign []
  | plus : IsSign ['+']
  | minus : IsSign ['-']

/-- Digits, with a point among or around them or without. -/
inductive IsMantissa : List Char → Prop where
  | whole {ds : List Char} (nonempty : ds ≠ []) (digits : Digits ds) : IsMantissa ds
  | point {ds es : List Char} (nonempty : ds ≠ [] ∨ es ≠ []) (digits : Digits ds)
    (digits' : Digits es) : IsMantissa (ds ++ '.' :: es)

/-- A power of ten, or none. -/
inductive IsExponent : List Char → Prop where
  | none : IsExponent []
  | power {mark : Char} {sign ds : List Char} (marks : mark = 'e' ∨ mark = 'E')
    (signs : IsSign sign) (nonempty : ds ≠ []) (digits : Digits ds) :
    IsExponent (mark :: (sign ++ ds))

/-- A word for a value that is not finite. -/
def IsWord (cs : List Char) : Prop :=
  cs.map Char.toLower ∈ ["inf".toList, "infinity".toList, "nan".toList]

/-- What is read as a double. -/
inductive IsNumeral : List Char → Prop where
  | number {sign mantissa exponent : List Char} (signs : IsSign sign)
    (mantissas : IsMantissa mantissa) (exponents : IsExponent exponent) :
    IsNumeral (sign ++ (mantissa ++ exponent))
  | word {sign cs : List Char} (signs : IsSign sign) (words : IsWord cs) : IsNumeral (sign ++ cs)

/-! ## Signs -/

/-- The text does not open with a sign. -/
def Unsigned (cs : List Char) : Prop := takeSign cs = (false, cs)

theorem exists_sign (cs : List Char) : ∃ sign, IsSign sign ∧ cs = sign ++ (takeSign cs).2 := by
  unfold takeSign
  split
  · exact ⟨['-'], .minus, rfl⟩
  · exact ⟨['+'], .plus, rfl⟩
  · exact ⟨[], .none, rfl⟩

theorem takeSign_append {sign cs : List Char} (signs : IsSign sign) (unsigned : Unsigned cs) :
    (takeSign (sign ++ cs)).2 = cs := by
  cases signs with
  | none => exact congrArg Prod.snd unsigned
  | plus => rfl
  | minus => rfl

theorem Digits.unsigned {ds : List Char} (digits : Digits ds) (rest : List Char)
    (nonempty : ds ≠ []) : Unsigned (ds ++ rest) := by
  obtain ⟨c, cs, rfl⟩ := List.exists_cons_of_ne_nil nonempty
  exact takeSign_of_isDigit (digits c List.mem_cons_self) _

theorem IsMantissa.unsigned {mantissa : List Char} (h : IsMantissa mantissa)
    (rest : List Char) : Unsigned (mantissa ++ rest) := by
  cases h with
  | whole nonempty digits => exact digits.unsigned rest nonempty
  | @point ds es nonempty digits digits' =>
    cases ds with
    | nil => rfl
    | cons c ds =>
      rw [List.append_assoc]
      exact digits.unsigned _ (List.cons_ne_nil c ds)

theorem IsWord.unsigned {cs : List Char} (h : IsWord cs) : Unsigned cs := by
  unfold Unsigned takeSign
  split
  case h_1 => exact absurd h (by simp [IsWord])
  case h_2 => exact absurd h (by simp [IsWord])
  case h_3 => rfl

/-! ## Digits at the front -/

/-- What follows is not another digit. -/
def Stops (cs : List Char) : Prop := cs.takeWhile Char.isDigit = []

theorem takeWhile_digits {ds rest : List Char} (digits : Digits ds) (stops : Stops rest) :
    (ds ++ rest).takeWhile Char.isDigit = ds := by
  rw [List.takeWhile_append_of_pos digits, stops, List.append_nil]

theorem dropWhile_digits {ds rest : List Char} (digits : Digits ds) (stops : Stops rest) :
    (ds ++ rest).dropWhile Char.isDigit = rest := by
  rw [List.dropWhile_append_of_pos digits]
  cases rest with
  | nil => rfl
  | cons c cs =>
    rw [Stops, List.takeWhile_cons] at stops
    rw [List.dropWhile_cons]
    split at stops
    case isTrue => cases stops
    case isFalse other => rw [if_neg other]

theorem digits_takeWhile (cs : List Char) : Digits (cs.takeWhile Char.isDigit) :=
  fun _ hc => List.mem_takeWhile_imp hc

theorem IsExponent.stops {cs : List Char} (h : IsExponent cs) : Stops cs := by
  cases h with
  | none => rfl
  | power marks => obtain rfl | rfl := marks <;> rfl

/-! ## Reading -/

theorem filled_iff {ds : List Char} :
    (!ds.isEmpty && ds.all Char.isDigit) = true ↔ ds ≠ [] ∧ Digits ds := by
  rw [Bool.and_eq_true, Bool.not_eq_true', List.isEmpty_eq_false_iff, List.all_eq_true, Digits]

/-- Whole numbers are digits, with a plus sign or without. -/
theorem natural?_eq_some_iff {cs : List Char} {n : ℕ} : natural? cs = some n ↔
    ∃ ds, (cs = ds ∨ cs = '+' :: ds) ∧ ds ≠ [] ∧ Digits ds ∧ digitsValue 0 ds = n := by
  have read {ds : List Char} :
      (if (!ds.isEmpty && ds.all Char.isDigit) = true then some (digitsValue 0 ds) else none) =
        some n ↔ ds ≠ [] ∧ Digits ds ∧ digitsValue 0 ds = n := by
    rw [Option.ite_none_right_eq_some, filled_iff, Option.some_inj, and_assoc]
  unfold natural?
  split
  case h_1 ds =>
    refine read.trans ⟨fun h => ⟨ds, .inr rfl, h⟩, ?_⟩
    intro ⟨es, split, nonempty, digits, value⟩
    rcases split with rfl | split
    · cases digits '+' List.mem_cons_self
    · obtain rfl := List.tail_eq_of_cons_eq split
      exact ⟨nonempty, digits, value⟩
  case h_2 other =>
    refine read.trans ⟨fun h => ⟨cs, .inl rfl, h⟩, ?_⟩
    intro ⟨es, split, nonempty, digits, value⟩
    rcases split with rfl | rfl
    · exact ⟨nonempty, digits, value⟩
    · exact absurd rfl (other es)

theorem isSome_exponent?_cons (c : Char) (cs : List Char) :
    (exponent? (c :: cs)).isSome = true ↔
      (c = 'e' ∨ c = 'E') ∧ (takeSign cs).2 ≠ [] ∧ Digits (takeSign cs).2 := by
  rw [exponent?]
  by_cases mark : c = 'e' ∨ c = 'E'
  · rw [if_pos mark, and_iff_right mark, ← filled_iff]
    dsimp only
    split
    case isTrue filled => exact iff_of_true rfl filled
    case isFalse other => exact iff_of_false Bool.false_ne_true other
  · rw [if_neg mark]
    exact iff_of_false Bool.false_ne_true fun h => mark h.1

theorem isSome_exponent?_iff (cs : List Char) : (exponent? cs).isSome = true ↔ IsExponent cs := by
  cases cs with
  | nil => exact iff_of_true rfl .none
  | cons c cs =>
    rw [isSome_exponent?_cons]
    constructor
    · intro ⟨marks, nonempty, digits⟩
      obtain ⟨sign, signs, split⟩ := exists_sign cs
      rw [split]
      exact .power marks signs nonempty digits
    · intro h
      cases h with
      | power marks signs nonempty digits =>
        have taken := takeSign_append signs (digits.unsigned [] nonempty)
        rw [List.append_nil] at taken
        rw [taken]
        exact ⟨marks, nonempty, digits⟩

/-- Whether there are digits, and an exponent or nothing behind them. -/
theorem isSome_ite_exponent? (ds es rest : List Char) (f : ℤ → Signed) :
    (if (ds.isEmpty && es.isEmpty) = true then none else (exponent? rest).map f).isSome = true ↔
      (ds ≠ [] ∨ es ≠ []) ∧ IsExponent rest := by
  rw [← isSome_exponent?_iff]
  split
  case isTrue none =>
    rw [Bool.and_eq_true, List.isEmpty_iff, List.isEmpty_iff] at none
    refine iff_of_false Bool.false_ne_true fun ⟨nonempty, _⟩ => ?_
    exact nonempty.elim (absurd none.1) (absurd none.2)
  case isFalse some =>
    rw [Bool.and_eq_true, List.isEmpty_iff, List.isEmpty_iff] at some
    rw [Option.isSome_map, and_iff_right (not_and_or.mp some)]

theorem isSome_signed?_iff (cs : List Char) : (signed? cs).isSome = true ↔
    ∃ mantissa exponent, (takeSign cs).2 = mantissa ++ exponent ∧ IsMantissa mantissa ∧
      IsExponent exponent := by
  unfold signed?
  dsimp only
  generalize (takeSign cs).2 = cs
  have apart : cs = cs.takeWhile Char.isDigit ++ cs.dropWhile Char.isDigit :=
    List.takeWhile_append_dropWhile.symm
  constructor
  · intro read
    split at read
    case h_1 rest behind =>
      obtain ⟨nonempty, exponents⟩ := (isSome_ite_exponent? _ _ _ _).mp read
      refine ⟨_, _, ?_, .point nonempty (digits_takeWhile cs) (digits_takeWhile rest), exponents⟩
      rw [List.append_assoc, List.cons_append, List.takeWhile_append_dropWhile, ← behind, ← apart]
    case h_2 =>
      obtain ⟨nonempty, exponents⟩ := (isSome_ite_exponent? _ _ _ _).mp read
      have whole := nonempty.resolve_right (not_not.mpr rfl)
      exact ⟨_, _, apart, .whole whole (digits_takeWhile cs), exponents⟩
  · intro ⟨mantissa, exponent, split, mantissas, exponents⟩
    subst split
    cases mantissas with
    | whole nonempty digits =>
      rw [takeWhile_digits digits exponents.stops, dropWhile_digits digits exponents.stops]
      split
      case h_1 =>
        -- An exponent does not open with a point.
        cases exponents with
        | power marks => exact absurd marks (by decide)
      case h_2 => exact (isSome_ite_exponent? _ _ _ _).mpr ⟨.inl nonempty, exponents⟩
    | @point ds es nonempty digits digits' =>
      have behind : Stops ('.' :: (es ++ exponent)) := rfl
      rw [List.append_assoc, List.cons_append, takeWhile_digits digits behind,
        dropWhile_digits digits behind]
      simp only [takeWhile_digits digits' exponents.stops, dropWhile_digits digits' exponents.stops]
      exact (isSome_ite_exponent? _ _ _ _).mpr ⟨nonempty, exponents⟩

theorem isSome_word?_iff (cs : List Char) :
    (word? cs).isSome = true ↔ IsWord (takeSign cs).2 := by
  have letters {w : List Char} {text : String} : String.ofList w = text ↔ w = text.toList :=
    ⟨fun h => by rw [← h, String.toList_ofList], fun h => by rw [h, String.ofList_toList]⟩
  unfold word? IsWord
  dsimp only
  generalize (takeSign cs).2.map Char.toLower = w
  rw [List.mem_cons, List.mem_cons, List.mem_singleton, ← letters, ← letters, ← letters]
  split
  case h_1 inf => exact iff_of_true rfl (.inl inf)
  case h_2 infinity => exact iff_of_true rfl (.inr (.inl infinity))
  case h_3 nan => exact iff_of_true rfl (.inr (.inr nan))
  case h_4 inf infinity nan =>
    exact iff_of_false Bool.false_ne_true fun h => h.elim inf (Or.rec infinity nan)

/-- The texts that are read as doubles. -/
theorem isSome_float?_iff (cs : List Char) : (float? cs).isSome = true ↔ IsNumeral cs := by
  have either : (float? cs).isSome = true ↔
      (signed? cs).isSome = true ∨ (word? cs).isSome = true := by
    unfold float?
    cases signed? cs with
    | some s => exact iff_of_true rfl (.inl rfl)
    | none => rw [or_iff_right (by decide)]
  rw [either, isSome_signed?_iff, isSome_word?_iff]
  constructor
  · intro read
    obtain ⟨sign, signs, split⟩ := exists_sign cs
    rw [split]
    rcases read with ⟨mantissa, exponent, behind, mantissas, exponents⟩ | words
    · rw [behind]
      exact .number signs mantissas exponents
    · exact .word signs words
  · intro h
    cases h with
    | @number sign mantissa exponent signs mantissas exponents =>
      exact .inl ⟨mantissa, exponent, takeSign_append signs (mantissas.unsigned exponent),
        mantissas, exponents⟩
    | word signs words =>
      right
      rwa [takeSign_append signs words.unsigned]

example : IsNumeral ['-', '.', '5', 'E', '+', '3'] := (isSome_float?_iff _).mp (by decide)

example : ¬ IsNumeral ['1', 'e'] := mt (isSome_float?_iff _).mpr (by decide)

end Influence.Numeral
