import Influence.Proofs.LineText

/-!
# Texts that can be told apart

A value is written in front of other text.  Its text is unambiguous if, whatever follows in one of
the expected ways, the value and what follows can be told from the whole (`Unambiguous`).  Words are
so in front of any other character, sequences in front of what no item starts with
(`Unambiguous.items`), and lines of fields in front of anything (`unambiguous_fieldsLine`).
-/

namespace Influence.Text

variable {β : Type}

/-- The text of a good value can be told from what follows it in an expected way. -/
def Unambiguous (text : β → List Char) (Good : β → Prop) (Follows : List Char → Prop) : Prop :=
  ∀ ⦃b b' : β⦄ ⦃r r' : List Char⦄, Good b → Good b' → Follows r → Follows r' →
    text b ++ r = text b' ++ r' → b = b' ∧ r = r'

/-- The text does not start with such a character. -/
def Stops (p : Char → Bool) (r : List Char) : Prop := ∀ c ∈ r.head?, p c = false

theorem stops_cons {p : Char → Bool} {c : Char} (h : p c = false) (r : List Char) :
    Stops p (c :: r) := by
  intro d hd
  cases hd
  exact h

/-- A word ends at the first character that does not belong to it. -/
theorem unambiguous_word (p : Char → Bool) :
    Unambiguous id (fun w => ∀ c ∈ w, p c = true) (Stops p) := by
  intro w w' r r' hw hw' hr hr' same
  have taken {w r : List Char} (hw : ∀ c ∈ w, p c = true) (hr : Stops p r) :
      (w ++ r).takeWhile p = w := by
    rw [List.takeWhile_append_of_pos hw]
    cases r with
    | nil => exact List.append_nil w
    | cons c r =>
      rw [List.takeWhile_cons_of_neg (by rw [hr c rfl]; exact Bool.false_ne_true), List.append_nil]
  have first : w = w' := by
    rw [← taken hw hr, ← taken hw' hr']
    exact congrArg (List.takeWhile p) same
  subst first
  exact ⟨rfl, List.append_cancel_left same⟩

theorem Unambiguous.mono {text : β → List Char} {Good : β → Prop} {Follows Ends : List Char → Prop}
    (h : Unambiguous text Good Follows) (fewer : ∀ r, Ends r → Follows r) :
    Unambiguous text Good Ends := by
  intro b b' r r' good good' hr hr' same
  exact h good good' (fewer r hr) (fewer r' hr') same

/-! ## Sequences -/

/-- Items behind one another, each written with its position. -/
def itemsText (item : ℕ → β → List Char) : ℕ → List β → List Char
  | _, [] => []
  | k, b :: bs => item k b ++ itemsText item (k + 1) bs

theorem itemsText_const (item : β → List Char) (k : ℕ) (bs : List β) :
    itemsText (fun _ => item) k bs = bs.flatMap item := by
  induction bs generalizing k with
  | nil => rfl
  | cons b bs ih => rw [itemsText, ih, List.flatMap_cons]

section

variable {item : ℕ → β → List Char} {Good : β → Prop} {Follows Ends : List Char → Prop}

theorem follows_itemsText (goes : ∀ k b r, Good b → Follows (item k b ++ r))
    (ends : ∀ r, Ends r → Follows r) {bs : List β} (good : ∀ b ∈ bs, Good b) {r : List Char}
    (hr : Ends r) (k : ℕ) : Follows (itemsText item k bs ++ r) := by
  cases bs with
  | nil => exact ends r hr
  | cons b bs =>
    rw [itemsText, List.append_assoc]
    exact goes k b _ (good b List.mem_cons_self)

/-- Items that are unambiguous in front of items and of what ends the sequence make up an
unambiguous sequence, if no item starts as what ends it does. -/
theorem Unambiguous.items (one : ∀ k, Unambiguous (item k) Good Follows)
    (goes : ∀ k b r, Good b → Follows (item k b ++ r)) (ends : ∀ r, Ends r → Follows r)
    (stop : ∀ k b r, Good b → ¬ Ends (item k b ++ r)) (k : ℕ) :
    Unambiguous (itemsText item k) (fun bs => ∀ b ∈ bs, Good b) Ends := by
  intro bs bs' r r' good good' hr hr' same
  induction bs generalizing k bs' with
  | nil =>
    cases bs' with
    | nil => exact ⟨rfl, same⟩
    | cons b' bs' =>
      rw [itemsText, itemsText, List.nil_append, List.append_assoc] at same
      rw [same] at hr
      exact absurd hr (stop k b' _ (good' b' List.mem_cons_self))
  | cons b bs ih =>
    obtain ⟨first, rest⟩ := List.forall_mem_cons.mp good
    cases bs' with
    | nil =>
      rw [itemsText, itemsText, List.nil_append, List.append_assoc] at same
      rw [← same] at hr'
      exact absurd hr' (stop k b _ first)
    | cons b' bs' =>
      obtain ⟨first', rest'⟩ := List.forall_mem_cons.mp good'
      rw [itemsText, itemsText, List.append_assoc, List.append_assoc] at same
      obtain ⟨rfl, behind⟩ := one k first first' (follows_itemsText goes ends rest hr (k + 1))
        (follows_itemsText goes ends rest' hr' (k + 1)) same
      obtain ⟨rfl, last⟩ := ih (k + 1) rest rest' behind
      exact ⟨rfl, last⟩

end

/-! ## Lines of fields -/

/-- A line of fields, with a space before each. -/
def fieldsLine (fs : List (List Char)) : List Char := fs.flatMap (' ' :: ·) ++ ['\n']

/-- The text starts with a blank. -/
def StartsBlank (r : List Char) : Prop := ∃ c s, r = c :: s ∧ isBlank c = true

theorem StartsBlank.stops {r : List Char} (h : StartsBlank r) : Stops (fun c => !isBlank c) r := by
  obtain ⟨c, s, rfl, blank⟩ := h
  exact stops_cons (by rw [blank]; rfl) s

/-- A field ends at the first blank. -/
theorem unambiguous_field : Unambiguous id IsField StartsBlank := by
  intro w w' r r' hw hw' hr hr' same
  apply unambiguous_word (fun c => !isBlank c) _ _ hr.stops hr'.stops same
  · intro c hc
    rw [hw.solid c hc]
    rfl
  · intro c hc
    rw [hw'.solid c hc]
    rfl

theorem unambiguous_fieldsLine :
    Unambiguous fieldsLine (fun fs => ∀ f ∈ fs, IsField f) fun _ => True := by
  intro fs fs' r r' good good' _ _ same
  unfold fieldsLine at same
  rw [List.append_assoc, List.append_assoc, ← itemsText_const _ 0, ← itemsText_const _ 0] at same
  have one : ∀ _ : ℕ, Unambiguous (fun f => ' ' :: f) IsField StartsBlank := by
    intro _ f f' r r' hf hf' hr hr' same
    exact unambiguous_field hf hf' hr hr' (List.cons.inj same).2
  have goes : ∀ (_ : ℕ) f r, IsField f → StartsBlank (' ' :: f ++ r) :=
    fun _ f r _ => ⟨' ', f ++ r, rfl, rfl⟩
  have ends : ∀ r, (∃ s, r = '\n' :: s) → StartsBlank r := by
    rintro _ ⟨s, rfl⟩
    exact ⟨'\n', s, rfl, rfl⟩
  have stop : ∀ (_ : ℕ) f r, IsField f → ¬ ∃ s, ' ' :: f ++ r = '\n' :: s := by
    rintro _ f r - ⟨s, other⟩
    cases (List.cons.inj other).1
  obtain ⟨rfl, behind⟩ := Unambiguous.items one goes ends stop 0 good good' ⟨r, rfl⟩ ⟨r', rfl⟩
    same
  exact ⟨rfl, (List.cons.inj behind).2⟩

/-! ## Indented lines -/

/-- The text starts at the margin. -/
def StartsFlush (r : List Char) : Prop := ∃ c s, r = c :: s ∧ c ≠ ' '

/-- Indented lines can be told apart from what starts at the margin. -/
theorem Unambiguous.indented {text : β → List Char} {Good : β → Prop}
    (one : Unambiguous text Good fun _ => True) (starts : ∀ b, Good b → ∃ s, text b = ' ' :: s) :
    Unambiguous (fun bs : List β => bs.flatMap text) (fun bs => ∀ b ∈ bs, Good b) StartsFlush := by
  have stop : ∀ (_ : ℕ) b r, Good b → ¬ StartsFlush (text b ++ r) := by
    rintro _ b r good ⟨c, s, flush, margin⟩
    obtain ⟨t, indented⟩ := starts b good
    rw [indented] at flush
    exact margin (List.cons.inj flush).1.symm
  have items := Unambiguous.items (fun _ : ℕ => one) (fun _ _ _ _ => trivial)
    (fun _ _ => trivial) stop 0
  intro bs bs' r r' good good' hr hr' same
  change bs.flatMap text ++ r = bs'.flatMap text ++ r' at same
  rw [← itemsText_const text 0, ← itemsText_const text 0] at same
  exact items good good' hr hr' same

/-! ## Sections -/

/-- A list under its heading, which is left out with the list if that is empty. -/
def headed (heading : String) (text : List β → List Char) (bs : List β) : List Char :=
  if bs.isEmpty then [] else heading.toList ++ text bs

/-- A section can be told from what does not start as its heading does. -/
theorem Unambiguous.headed {heading : String} {text : List β → List Char} {Good : List β → Prop}
    {Follows : List Char → Prop} (body : Unambiguous text Good Follows)
    (apart : ∀ r s, Follows r → r ≠ heading.toList ++ s) :
    Unambiguous (Text.headed heading text) Good Follows := by
  intro bs bs' r r' good good' hr hr' same
  unfold Text.headed at same
  split at same
  case isTrue none =>
    split at same
    case isTrue none' =>
      rw [List.isEmpty_iff.mp none, List.isEmpty_iff.mp none']
      exact ⟨rfl, same⟩
    case isFalse =>
      rw [List.append_assoc] at same
      exact absurd same (apart r _ hr)
  case isFalse =>
    rw [List.append_assoc] at same
    split at same
    case isTrue => exact absurd same.symm (apart r' _ hr')
    case isFalse =>
      rw [List.append_assoc] at same
      exact body good good' hr hr' (List.append_cancel_left same)

end Influence.Text
