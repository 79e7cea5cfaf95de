import Influence.Proofs.LineGrammar
import Influence.Proofs.NumeralGrammar
import Influence.Proofs.VariableNames

/-!
# The grammar of solution files

A line of a solution file says nothing (`IsIdle`), or gives a value to a variable (`Assigns`), or is
at fault (`Fault`).  The lines are read in order (`Reads`), so a file is read where no line is at
fault, and the fault of the first such line is the answer otherwise (`ofText_eq_error_iff`).  What
counts for a variable is the last line that names it, and lines that name different variables may
change places (`ofText_grammar`).
-/

namespace Influence

open Text Numeral

namespace Program

/-- A name finds the first variable that was given it. -/
theorem find?_eq_some_iff_first {α : Type} {m : Program α} {name : String} {v : ℕ} :
    m.find? name = some v ↔ m.given? v = some name ∧ ∀ w < v, m.given? w ≠ some name := by
  have first {w : ℕ} (found : m.find? name = some w) : ∀ u < w, m.given? u ≠ some name := by
    intro u before given
    obtain ⟨_, _, others⟩ := Array.findIdx?_eq_some_iff_getElem.mp found
    obtain ⟨x, hx, named⟩ := Option.bind_eq_some_iff.mp given
    obtain ⟨hu, rfl⟩ := Array.getElem?_eq_some_iff.mp hx
    exact others u before (beq_iff_eq.mpr named)
  refine ⟨fun found => ⟨given?_of_find? found, first found⟩, fun ⟨given, others⟩ => ?_⟩
  cases found : m.find? name with
  | none => exact absurd given (find?_eq_none_iff.mp found v)
  | some w =>
    rcases lt_trichotomy v w with before | rfl | behind
    · exact absurd given (first found v before)
    · rfl
    · exact absurd (given?_of_find? found) (others w behind)

end Program

namespace Solution

/-! ## Lines that say nothing -/

/-- A blank line, or a comment behind blanks. -/
def IsIdle (line : List Char) : Prop :=
  Blanks line ∨ ∃ front back, line = front ++ '#' :: back ∧ Blanks front

theorem isSkipped_trim_iff (line : List Char) : isSkipped (trim line) = true ↔ IsIdle line := by
  obtain ⟨front, back, split, blanks, blanks', first⟩ := exists_trim line
  cases trimmed : trim line with
  | nil =>
    rw [trimmed, List.append_nil] at split
    refine iff_of_true rfl (.inl ?_)
    rw [split]
    exact List.forall_mem_append.mpr ⟨blanks, blanks'⟩
  | cons c cs =>
    rw [trimmed] at split first
    have solid : isBlank c = false := first c rfl
    have skipped : isSkipped (c :: cs) = true ↔ c = '#' := by
      rw [isSkipped, List.isEmpty_cons, Bool.false_or, List.head?_cons, beq_iff_eq, Option.some_inj]
    rw [skipped]
    constructor
    · intro mark
      refine .inr ⟨front, cs ++ back, ?_, blanks⟩
      rw [split, mark, List.append_assoc, List.cons_append]
    · intro idle
      rcases idle with all | ⟨front', back', split', blanks''⟩
      · have blank := all c (by simp [split])
        exact absurd (blank.symm.trans solid) (by decide)
      · -- Both splits show the first character that is no blank.
        have start : line.dropWhile isBlank = c :: (cs ++ back) := by
          rw [split, List.append_assoc, List.dropWhile_append_of_pos blanks, List.cons_append,
            dropWhile_isBlank solid]
        rw [split', List.dropWhile_append_of_pos blanks'', dropWhile_isBlank (by decide)] at start
        exact (List.cons.inj start).1.symm

/-! ## Names -/

/-- A name that reads as `v` and a whole number. -/
def IsNumbered (name : List Char) (v : ℕ) : Prop :=
  ∃ ds, (name = 'v' :: ds ∨ name = 'v' :: '+' :: ds) ∧ ds ≠ [] ∧ Digits ds ∧ digitsValue 0 ds = v

/-- What a name resolves to: the first variable that was given it, else the one by number. -/
def Resolves {α : Type} (m : Program α) (name : List Char) (v : ℕ) : Prop :=
  (m.given? v = some (String.ofList name) ∧ ∀ w < v, m.given? w ≠ some (String.ofList name)) ∨
    (∀ w, m.given? w ≠ some (String.ofList name)) ∧ IsNumbered name v ∧ v < m.vars.size

theorem numbers_ofList_iff (name : List Char) (v : ℕ) :
    Program.Numbers (String.ofList name) v ↔ IsNumbered name v := by
  rw [Program.Numbers, String.toList_ofList, IsNumbered]
  constructor
  · intro ⟨digits, letters, read⟩
    obtain ⟨ds, split, run⟩ := natural?_eq_some_iff.mp read
    refine ⟨ds, split.imp (fun plain => ?_) fun plus => ?_, run⟩
    · rw [letters, plain]
    · rw [letters, plus]
  · intro ⟨ds, split, run⟩
    rcases split with plain | plus
    · exact ⟨ds, plain, natural?_eq_some_iff.mpr ⟨ds, .inl rfl, run⟩⟩
    · exact ⟨'+' :: ds, plus, natural?_eq_some_iff.mpr ⟨ds, .inr rfl, run⟩⟩

section Names

variable {α : Type} {m : Program α} {name : List Char} {v : ℕ}

theorem resolve?_iff_resolves : resolve? m name = some v ↔ Resolves m name v := by
  have numbered : numbered? m name = some v ↔ IsNumbered name v ∧ v < m.vars.size := by
    rw [← numbers_ofList_iff, ← Program.numbered?_eq_some_iff, String.toList_ofList]
  rw [resolve?, Option.or_eq_some_iff, Program.find?_eq_some_iff_first,
    Program.find?_eq_none_iff, numbered, Resolves]

theorem Resolves.lt (h : Resolves m name v) : v < m.vars.size := by
  rcases h with ⟨given, -⟩ | ⟨-, -, inside⟩
  · exact Program.lt_of_given? given
  · exact inside

end Names

/-! ## Lines that assign -/

variable {m : Program Float} {number : ℕ} {line name value : List Char} {v : ℕ} {x : Float}

/-- A line that gives a value to a variable. -/
structure Assigns (m : Program Float) (line : List Char) (v : ℕ) (x : Float) : Prop where
  speaks : ¬ IsIdle line
  pair : ∃ name value, IsPair line name value ∧ Resolves m name v ∧ float? value = some x

/-- What is wrong with a line that has a number: first its fields, then the value, then the name. -/
inductive Fault (m : Program Float) (number : ℕ) (line : List Char) :
    ProgramError Float → Prop where
  | fields (none : ∀ name value, ¬ IsPair line name value) :
    Fault m number line (.solutionParse number (.fields (String.ofList line)))
  | value {name value : List Char} (pair : IsPair line name value) (other : ¬ IsNumeral value) :
    Fault m number line (.solutionParse number (.value (String.ofList name)))
  | name {name value : List Char} (pair : IsPair line name value) (numeral : IsNumeral value)
    (unknown : ∀ v, ¬ Resolves m name v) :
    Fault m number line (.unknownVariable (String.ofList name))

theorem isNumeral_iff_exists : IsNumeral value ↔ ∃ x, float? value = some x := by
  rw [← isSome_float?_iff, Option.isSome_iff_exists]

theorem isPair_trim_iff : IsPair (trim line) name value ↔ IsPair line name value := by
  rw [← fields_eq_pair_iff, ← fields_eq_pair_iff, fields_trim]

theorem assignment_of_resolves (pair : IsPair line name value) (resolves : Resolves m name v)
    (read : float? value = some x) : assignment m number line = .ok (v, x) := by
  change read? value = some x at read
  rw [assignment, fields_eq_pair_iff.mpr pair]
  dsimp only
  rw [read, resolve?_iff_resolves.mpr resolves]

theorem Fault.assignment_eq {e : ProgramError Float} (h : Fault m number line e) :
    assignment m number line = .error e := by
  cases h with
  | fields none =>
    unfold assignment
    split
    case h_1 name value fields => exact absurd (fields_eq_pair_iff.mp fields) (none name value)
    case h_2 => rfl
  | @value name value pair other =>
    have unread : read? value = (none : Option Float) :=
      Option.not_isSome_iff_eq_none.mp (mt (isSome_float?_iff value).mp other)
    rw [assignment, fields_eq_pair_iff.mpr pair]
    dsimp only
    rw [unread]
  | @name name value pair numeral unknown =>
    obtain ⟨x, read⟩ := isNumeral_iff_exists.mp numeral
    change read? value = some x at read
    have missing : resolve? m name = none :=
      Option.eq_none_iff_forall_ne_some.mpr fun v found =>
        unknown v (resolve?_iff_resolves.mp found)
    rw [assignment, fields_eq_pair_iff.mpr pair]
    dsimp only
    rw [read, missing]

/-- A line gives a value to a variable, or something is wrong with it. -/
theorem resolves_or_fault (m : Program Float) (number : ℕ) (line : List Char) :
    (∃ name value v x, IsPair line name value ∧ Resolves m name v ∧ float? value = some x) ∨
      ∃ e, Fault m number line e := by
  by_cases pair : ∃ name value, IsPair line name value
  · obtain ⟨name, value, pair⟩ := pair
    by_cases numeral : IsNumeral value
    · by_cases known : ∃ v, Resolves m name v
      · obtain ⟨v, resolves⟩ := known
        obtain ⟨x, read⟩ := isNumeral_iff_exists.mp numeral
        exact .inl ⟨name, value, v, x, pair, resolves, read⟩
      · exact .inr ⟨_, .name pair numeral (not_exists.mp known)⟩
    · exact .inr ⟨_, .value pair numeral⟩
  · exact .inr ⟨_, .fields fun name value h => pair ⟨name, value, h⟩⟩

theorem assignment_eq_ok_iff : assignment m number line = .ok (v, x) ↔
    ∃ name value, IsPair line name value ∧ Resolves m name v ∧ float? value = some x := by
  constructor
  · intro ok
    rcases resolves_or_fault m number line with ⟨name, value, w, y, pair, resolves, read⟩ | ⟨e, h⟩
    · obtain ⟨rfl, rfl⟩ :=
        Prod.mk.inj (Except.ok.inj (ok.symm.trans (assignment_of_resolves pair resolves read)))
      exact ⟨name, value, pair, resolves, read⟩
    · rw [h.assignment_eq] at ok
      cases ok
  · intro ⟨name, value, pair, resolves, read⟩
    exact assignment_of_resolves pair resolves read

theorem assignment_eq_error_iff {e : ProgramError Float} :
    assignment m number line = .error e ↔ Fault m number line e := by
  refine ⟨fun error => ?_, Fault.assignment_eq⟩
  rcases resolves_or_fault m number line with ⟨name, value, w, y, pair, resolves, read⟩ | ⟨e', h⟩
  · rw [assignment_of_resolves pair resolves read] at error
    cases error
  · rw [h.assignment_eq] at error
    obtain rfl := Except.error.inj error
    exact h

/-- No line is read as an assignment to a place that is none. -/
theorem lt_of_assignment (ok : assignment m number line = .ok (v, x)) : v < m.vars.size := by
  obtain ⟨name, value, -, resolves, -⟩ := assignment_eq_ok_iff.mp ok
  exact resolves.lt

theorem assignment_trim_eq_ok_iff (speaks : ¬ IsIdle line) :
    assignment m number (trim line) = .ok (v, x) ↔ Assigns m line v x := by
  rw [assignment_eq_ok_iff]
  simp only [isPair_trim_iff]
  exact ⟨fun pair => ⟨speaks, pair⟩, Assigns.pair⟩

/-! ## Reading line by line -/

/-- The line is read without a fault. -/
def IsAccepted (m : Program Float) (line : List Char) : Prop :=
  IsIdle line ∨ ∃ v x, Assigns m line v x

theorem isAccepted_iff : IsAccepted m line ↔ IsIdle line ∨
    ∃ name value v, IsPair line name value ∧ IsNumeral value ∧ Resolves m name v := by
  constructor
  · intro accepted
    refine accepted.imp_right fun ⟨v, x, assigns⟩ => ?_
    obtain ⟨name, value, pair, resolves, read⟩ := assigns.pair
    exact ⟨name, value, v, pair, isNumeral_iff_exists.mpr ⟨x, read⟩, resolves⟩
  · intro h
    by_cases idle : IsIdle line
    · exact .inl idle
    · obtain ⟨name, value, v, pair, numeral, resolves⟩ := h.resolve_left idle
      obtain ⟨x, read⟩ := isNumeral_iff_exists.mp numeral
      exact .inr ⟨v, x, idle, name, value, pair, resolves, read⟩

/-- What is read from lines, in order. -/
inductive Reads (m : Program Float) : List (List Char) → List (ℕ × Float) → Prop where
  | nil : Reads m [] []
  | idle {line : List Char} {ls : List (List Char)} {es : List (ℕ × Float)} (idle : IsIdle line)
    (rest : Reads m ls es) : Reads m (line :: ls) es
  | assigns {line : List Char} {ls : List (List Char)} {es : List (ℕ × Float)} {v : ℕ} {x : Float}
    (assigns : Assigns m line v x) (rest : Reads m ls es) : Reads m (line :: ls) ((v, x) :: es)

/-- The assignments of lines that are counted from a number. -/
def assignmentsFrom (m : Program Float) (number : ℕ) (ls : List (List Char)) :
    Except (ProgramError Float) (List (ℕ × Float)) :=
  (((ls.map trim).zipIdx number).filter fun e => !isSkipped e.1).mapM fun e => assignment m e.2 e.1

theorem assignments_eq (m : Program Float) (text : String) :
    assignments m text = assignmentsFrom m 1 (lines text.toList) :=
  rfl

variable {ls : List (List Char)} {es : List (ℕ × Float)} {e : ProgramError Float}

theorem assignmentsFrom_idle (idle : IsIdle line) (number : ℕ) (ls : List (List Char)) :
    assignmentsFrom m number (line :: ls) = assignmentsFrom m (number + 1) ls := by
  unfold assignmentsFrom
  rw [List.map_cons, List.zipIdx_cons, List.filter_cons, (isSkipped_trim_iff line).mpr idle,
    Bool.not_true, if_neg Bool.false_ne_true]

theorem assignmentsFrom_speaks (speaks : ¬ IsIdle line) (number : ℕ) (ls : List (List Char)) :
    assignmentsFrom m number (line :: ls) =
      (assignment m number (trim line) >>= fun first =>
        assignmentsFrom m (number + 1) ls >>= fun others => pure (first :: others)) := by
  have spoken : isSkipped (trim line) = false :=
    Bool.eq_false_iff.mpr (mt (isSkipped_trim_iff line).mp speaks)
  unfold assignmentsFrom
  rw [List.map_cons, List.zipIdx_cons, List.filter_cons, spoken, Bool.not_false, if_pos rfl,
    List.mapM_cons]

theorem assignmentsFrom_eq_ok_iff :
    assignmentsFrom m number ls = .ok es ↔ Reads m ls es := by
  induction ls generalizing number es with
  | nil =>
    constructor
    · intro ok
      obtain rfl := Except.ok.inj ok
      exact .nil
    · intro reads
      cases reads
      rfl
  | cons line ls ih =>
    by_cases idle : IsIdle line
    · rw [assignmentsFrom_idle idle, ih]
      refine ⟨.idle idle, fun reads => ?_⟩
      cases reads with
      | idle _ rest => exact rest
      | assigns assigns => exact absurd idle assigns.speaks
    · rw [assignmentsFrom_speaks idle, except_bind_eq_ok]
      constructor
      · intro ⟨⟨v, x⟩, first, others⟩
        obtain ⟨es, rest, same⟩ := except_bind_eq_ok.mp others
        obtain rfl := Except.ok.inj same
        exact .assigns ((assignment_trim_eq_ok_iff idle).mp first) (ih.mp rest)
      · intro reads
        cases reads with
        | idle other => exact absurd other idle
        | assigns assigns rest =>
          exact ⟨_, (assignment_trim_eq_ok_iff idle).mpr assigns,
            except_bind_eq_ok.mpr ⟨_, ih.mpr rest, rfl⟩⟩

theorem exists_reads_iff : (∃ es, Reads m ls es) ↔ ∀ line ∈ ls, IsAccepted m line := by
  induction ls with
  | nil => exact iff_of_true ⟨[], .nil⟩ fun _ h => nomatch h
  | cons line ls ih =>
    rw [List.forall_mem_cons, ← ih]
    constructor
    · intro ⟨es, reads⟩
      cases reads with
      | idle idle rest => exact ⟨.inl idle, _, rest⟩
      | assigns assigns rest => exact ⟨.inr ⟨_, _, assigns⟩, _, rest⟩
    · intro ⟨accepted, es, rest⟩
      rcases accepted with idle | ⟨v, x, assigns⟩
      · exact ⟨es, .idle idle rest⟩
      · exact ⟨(v, x) :: es, .assigns assigns rest⟩

/-- The fault of the first line that has one, in lines that are counted from a number. -/
inductive FailsAt (m : Program Float) : ℕ → List (List Char) → ProgramError Float → Prop where
  | here {number : ℕ} {line : List Char} {ls : List (List Char)} {e : ProgramError Float}
    (speaks : ¬ IsIdle line) (fault : Fault m number (trim line) e) :
    FailsAt m number (line :: ls) e
  | later {number : ℕ} {line : List Char} {ls : List (List Char)} {e : ProgramError Float}
    (accepted : IsAccepted m line) (rest : FailsAt m (number + 1) ls e) :
    FailsAt m number (line :: ls) e

theorem assignmentsFrom_eq_error_iff :
    assignmentsFrom m number ls = .error e ↔ FailsAt m number ls e := by
  induction ls generalizing number with
  | nil =>
    refine iff_of_false (fun error => ?_) fun fails => ?_
    · cases error
    · cases fails
  | cons line ls ih =>
    by_cases idle : IsIdle line
    · rw [assignmentsFrom_idle idle, ih]
      refine ⟨.later (.inl idle), fun fails => ?_⟩
      cases fails with
      | here speaks => exact absurd idle speaks
      | later _ rest => exact rest
    · rw [assignmentsFrom_speaks idle, except_bind_eq_error, assignment_eq_error_iff]
      simp only [except_map_eq_error, ih]
      constructor
      · intro error
        rcases error with fault | ⟨⟨v, x⟩, ok, rest⟩
        · exact .here idle fault
        · exact .later (.inr ⟨v, x, (assignment_trim_eq_ok_iff idle).mp ok⟩) rest
      · intro fails
        cases fails with
        | here _ fault => exact .inl fault
        | later accepted rest =>
          obtain ⟨v, x, assigns⟩ := accepted.resolve_left idle
          exact .inr ⟨(v, x), (assignment_trim_eq_ok_iff idle).mpr assigns, rest⟩

theorem failsAt_iff : FailsAt m number ls e ↔ ∃ front line back, ls = front ++ line :: back ∧
    (∀ l ∈ front, IsAccepted m l) ∧ ¬ IsIdle line ∧
      Fault m (number + front.length) (trim line) e := by
  constructor
  · intro fails
    induction fails with
    | @here number line ls e speaks fault =>
      exact ⟨[], line, ls, rfl, fun _ h => (nomatch h), speaks, fault⟩
    | @later number line ls e accepted rest ih =>
      obtain ⟨front, at_fault, back, rfl, others, speaks, fault⟩ := ih
      refine ⟨line :: front, at_fault, back, rfl, List.forall_mem_cons.mpr ⟨accepted, others⟩,
        speaks, ?_⟩
      rwa [List.length_cons, Nat.add_comm front.length, ← Nat.add_assoc]
  · intro ⟨front, line, back, split, accepted, speaks, fault⟩
    subst split
    induction front generalizing number with
    | nil => exact .here speaks fault
    | cons first front ih =>
      obtain ⟨own, others⟩ := List.forall_mem_cons.mp accepted
      rw [List.length_cons, Nat.add_comm front.length, ← Nat.add_assoc] at fault
      exact .later own (ih others fault)

/-! ## What the lines assign -/

/-- The values after assignments made one after the other. -/
def assigned (es : List (ℕ × Float)) (start : Array Float) : Array Float :=
  es.foldl (fun values e => values.setIfInBounds e.1 e.2) start

theorem ofText_eq_ok {text : String} (reads : Reads m (lines text.toList) es) :
    ofText m text = .ok ⟨assigned es (.replicate m.vars.size 0),
      m.objective.evaluate (assigned es (.replicate m.vars.size 0))⟩ := by
  refine except_bind_eq_ok.mpr ⟨es, ?_, if_pos ?_⟩
  · rw [assignments_eq, assignmentsFrom_eq_ok_iff]
    exact reads
  · exact (size_foldl_set es _).trans Array.size_replicate

theorem ofText_eq_ok_iff {text : String} {s : Solution Float} : ofText m text = .ok s ↔
    ∃ es, Reads m (lines text.toList) es ∧ s = ⟨assigned es (.replicate m.vars.size 0),
      m.objective.evaluate (assigned es (.replicate m.vars.size 0))⟩ := by
  constructor
  · intro ok
    obtain ⟨es, read, -⟩ := except_bind_eq_ok.mp ok
    rw [assignments_eq, assignmentsFrom_eq_ok_iff] at read
    exact ⟨es, read, Except.ok.inj (ok.symm.trans (ofText_eq_ok read))⟩
  · intro ⟨es, reads, same⟩
    rw [same, ofText_eq_ok reads]

theorem ofText_eq_error_iff {text : String} :
    ofText m text = .error e ↔ FailsAt m 1 (lines text.toList) e := by
  rw [← assignmentsFrom_eq_error_iff, ← assignments_eq]
  constructor
  · intro error
    cases read : assignments m text with
    | ok es =>
      rw [assignments_eq, assignmentsFrom_eq_ok_iff] at read
      rw [ofText_eq_ok read] at error
      cases error
    | error e' =>
      rw [ofText, read] at error
      exact congrArg Except.error (Except.error.inj error)
  · intro error
    rw [ofText, error]
    rfl

/-- A variable that no line assigns keeps its value. -/
theorem Reads.getD_of_none (reads : Reads m ls es) (none : ∀ line ∈ ls, ∀ x, ¬ Assigns m line v x)
    (start : Array Float) : (assigned es start).getD v 0 = start.getD v 0 := by
  induction reads generalizing start with
  | nil => rfl
  | idle _ rest ih => exact ih (List.forall_mem_cons.mp none).2 start
  | @assigns line ls es w y assigns rest ih =>
    obtain ⟨own, others⟩ := List.forall_mem_cons.mp none
    have differ : v ≠ w := fun same => own y (same ▸ assigns)
    exact (ih others _).trans (getD_set_of_ne differ y)

/-- A line assigns one value to one variable. -/
theorem Assigns.unique {w : ℕ} {y : Float} (h : Assigns m line v x) (h' : Assigns m line w y) :
    v = w ∧ x = y := by
  have ok : assignment m 0 (trim line) = .ok (v, x) := (assignment_trim_eq_ok_iff h.speaks).mpr h
  rw [(assignment_trim_eq_ok_iff h'.speaks).mpr h'] at ok
  exact Prod.mk.inj (Except.ok.inj ok.symm)

/-- A variable has the value of the last line that assigns it. -/
theorem Reads.getD_of_last {front back : List (List Char)}
    (reads : Reads m (front ++ line :: back) es) (assigns : Assigns m line v x)
    (none : ∀ l ∈ back, ∀ y, ¬ Assigns m l v y) {start : Array Float} (hv : v < start.size) :
    (assigned es start).getD v 0 = x := by
  induction front generalizing es start with
  | nil =>
    cases reads with
    | idle idle => exact absurd idle assigns.speaks
    | assigns own rest =>
      obtain ⟨rfl, rfl⟩ := assigns.unique own
      exact (rest.getD_of_none none _).trans (getD_set_self hv x)
  | cons first front ih =>
    cases reads with
    | idle _ rest => exact ih rest hv
    | assigns _ rest => exact ih rest (by rwa [Array.size_setIfInBounds])

/-- Two lines behind one another change places; they do not assign one variable. -/
inductive Swaps (m : Program Float) : List (List Char) → List (List Char) → Prop where
  | swap (front : List (List Char)) {first second : List Char} (back : List (List Char))
    (differ : ∀ v x y, Assigns m first v x → ¬ Assigns m second v y) :
    Swaps m (front ++ first :: second :: back) (front ++ second :: first :: back)

/-- Swapped lines assign the same. -/
theorem Swaps.exists_reads {ls' : List (List Char)} (swaps : Swaps m ls ls')
    (reads : Reads m ls es) :
    ∃ es', Reads m ls' es' ∧ ∀ start, assigned es' start = assigned es start := by
  cases swaps with
  | @swap front first second back differ =>
    induction front generalizing es with
    | nil =>
      cases reads with
      | idle idle rest =>
        cases rest with
        | idle idle' rest => exact ⟨es, .idle idle' (.idle idle rest), fun _ => rfl⟩
        | assigns assigns rest => exact ⟨_, .assigns assigns (.idle idle rest), fun _ => rfl⟩
      | @assigns _ _ _ v x assigns rest =>
        cases rest with
        | idle idle rest => exact ⟨_, .idle idle (.assigns assigns rest), fun _ => rfl⟩
        | @assigns _ _ es w y assigns' rest =>
          have apart : v ≠ w := fun same => differ v x y assigns (same ▸ assigns')
          refine ⟨(w, y) :: (v, x) :: es, .assigns assigns' (.assigns assigns rest),
            fun start => ?_⟩
          exact congrArg (assigned es) (Array.setIfInBounds_comm x y apart).symm
    | cons line front ih =>
      cases reads with
      | idle idle rest =>
        obtain ⟨es', reads', same⟩ := ih rest
        exact ⟨es', .idle idle reads', same⟩
      | assigns assigns rest =>
        obtain ⟨es', reads', same⟩ := ih rest
        exact ⟨_, .assigns assigns reads', fun start => same _⟩

/-- Lines in another order assign the same where only lines that assign different variables changed
places. -/
theorem Reads.exists_moved {ls' : List (List Char)} (reads : Reads m ls es)
    (moved : Relation.ReflTransGen (Swaps m) ls ls') :
    ∃ es', Reads m ls' es' ∧ ∀ start, assigned es' start = assigned es start := by
  induction moved with
  | refl => exact ⟨es, reads, fun _ => rfl⟩
  | tail _ swaps ih =>
    obtain ⟨es', reads', same⟩ := ih
    obtain ⟨es'', reads'', same'⟩ := swaps.exists_reads reads'
    exact ⟨es'', reads'', fun start => (same' start).trans (same start)⟩

/-- Solution files are read where every line follows the grammar.  No line leads to a place outside
the values; the value of a variable is that of the last line that assigns it, or zero; lines that
assign different variables may change places; and where reading fails the first line at fault is
told. -/
theorem ofText_grammar (m : Program Float) (text : String) :
    (∀ number line v x, assignment m number line = .ok (v, x) → v < m.vars.size) ∧
    ((∃ s, ofText m text = .ok s) ↔ ∀ line ∈ lines text.toList, IsIdle line ∨
      ∃ name value v, IsPair line name value ∧ IsNumeral value ∧ Resolves m name v) ∧
    (∀ s, ofText m text = .ok s →
      s.values.size = m.vars.size ∧ s.objective = m.objective.evaluate s.values ∧
      (∀ v < m.vars.size,
        ((∀ line ∈ lines text.toList, ∀ x, ¬ Assigns m line v x) → s.value v = 0) ∧
        ∀ front line back x, lines text.toList = front ++ line :: back → Assigns m line v x →
          (∀ l ∈ back, ∀ y, ¬ Assigns m l v y) → s.value v = x) ∧
      ∀ text' : String,
        Relation.ReflTransGen (Swaps m) (lines text.toList) (lines text'.toList) →
          ofText m text' = .ok s) ∧
    ∀ e, ofText m text = .error e ↔ ∃ front line back,
      lines text.toList = front ++ line :: back ∧
      (∀ l ∈ front, IsIdle l ∨ ∃ v x, Assigns m l v x) ∧ ¬ IsIdle line ∧
        Fault m (front.length + 1) (trim line) e := by
  refine ⟨fun number line v x => lt_of_assignment, ?_, fun s ok => ?_, fun e => ?_⟩
  · simp only [← isAccepted_iff, ← exists_reads_iff, ofText_eq_ok_iff]
    exact ⟨fun ⟨_, es, reads, _⟩ => ⟨es, reads⟩, fun ⟨es, reads⟩ => ⟨_, es, reads, rfl⟩⟩
  · obtain ⟨es, reads, rfl⟩ := ofText_eq_ok_iff.mp ok
    refine ⟨(size_foldl_set es _).trans Array.size_replicate, rfl, fun v hv => ⟨fun none => ?_, ?_⟩,
      fun text' moved => ?_⟩
    · refine (reads.getD_of_none none _).trans ?_
      rw [Array.getD_eq_getD_getElem?, Array.getElem?_replicate, if_pos hv, Option.getD_some]
    · intro front line back x split assigns none
      rw [split] at reads
      exact reads.getD_of_last assigns none (by rwa [Array.size_replicate])
    · obtain ⟨es', reads', same⟩ := reads.exists_moved moved
      rw [ofText_eq_ok reads', same]
  · simp only [ofText_eq_error_iff, failsAt_iff, Nat.add_comm 1]
    rfl

end Solution

end Influence
