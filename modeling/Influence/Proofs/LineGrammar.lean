import Mathlib.Data.List.DropRight
import Influence.Proofs.LineText

/-!
# Lines of fields

A text that is not all breaks has a first run, and its runs are this one and those of what follows
(`runs_eq_cons_iff`).  So a line has two fields where it is two texts without blanks, with blanks
between them and perhaps around them (`fields_eq_pair_iff`).  Trimming takes away the blanks around
a line (`exists_trim`) and leaves its fields as they are (`fields_trim`).
-/

namespace Influence.Text

/-! ## Runs -/

section Runs

variable {isBreak : Char → Bool} {front back w rest cs : List Char} {ws : List (List Char)}

/-- A run behind breaks or at the start, and what follows it. -/
structure IsFirstRun (isBreak : Char → Bool) (cs w rest : List Char) : Prop where
  split : ∃ front, (∀ c ∈ front, isBreak c = true) ∧ cs = front ++ (w ++ rest)
  nonempty : w ≠ []
  solid : ∀ c ∈ w, isBreak c = false
  ends : ∀ c ∈ rest.head?, isBreak c = true

theorem runs_append_left (breaks : ∀ c ∈ front, isBreak c = true) (cs : List Char) :
    runs isBreak (front ++ cs) = runs isBreak cs := by
  induction front with
  | nil => rfl
  | cons b front ih =>
    obtain ⟨first, others⟩ := List.forall_mem_cons.mp breaks
    rw [List.cons_append, runs_cons_break first, ih others]

theorem IsFirstRun.runs_eq (h : IsFirstRun isBreak cs w rest) :
    runs isBreak cs = w :: runs isBreak rest := by
  obtain ⟨front, breaks, rfl⟩ := h.split
  rw [runs_append_left breaks]
  cases rest with
  | nil => rw [List.append_nil, runs_solid h.nonempty h.solid, runs]
  | cons b rest =>
    have first := h.ends b rfl
    rw [runs_append h.nonempty h.solid first, runs_cons_break first]

theorem exists_isFirstRun (isBreak : Char → Bool) (cs : List Char) :
    (∀ c ∈ cs, isBreak c = true) ∨ ∃ w rest, IsFirstRun isBreak cs w rest := by
  induction cs with
  | nil => exact .inl fun _ hc => nomatch hc
  | cons c cs ih =>
    cases own : isBreak c with
    | true =>
      rcases ih with all | ⟨w, rest, run⟩
      · exact .inl (List.forall_mem_cons.mpr ⟨own, all⟩)
      · obtain ⟨front, breaks, split⟩ := run.split
        refine .inr ⟨w, rest, ⟨c :: front, List.forall_mem_cons.mpr ⟨own, breaks⟩, ?_⟩,
          run.nonempty, run.solid, run.ends⟩
        rw [split, List.cons_append]
    | false =>
      have cut : cs = cs.takeWhile (fun d => !isBreak d) ++ cs.dropWhile (fun d => !isBreak d) :=
        List.takeWhile_append_dropWhile.symm
      refine .inr ⟨c :: cs.takeWhile fun d => !isBreak d, cs.dropWhile fun d => !isBreak d,
        ⟨[], fun _ hc => (nomatch hc), ?_⟩, List.cons_ne_nil _ _,
        List.forall_mem_cons.mpr ⟨own, fun d hd => ?_⟩, fun d hd => ?_⟩
      · rw [List.nil_append, List.cons_append, ← cut]
      · simpa using List.mem_takeWhile_imp hd
      · have stopped := List.head?_dropWhile_not (fun d => !isBreak d) cs
        rw [Option.mem_def.mp hd] at stopped
        simpa using stopped

theorem runs_eq_nil_iff : runs isBreak cs = [] ↔ ∀ c ∈ cs, isBreak c = true := by
  constructor
  · intro none
    refine (exists_isFirstRun isBreak cs).resolve_right fun ⟨w, rest, run⟩ => ?_
    rw [run.runs_eq] at none
    cases none
  · intro all
    have none := runs_append_left all []
    rwa [List.append_nil, runs.eq_def isBreak []] at none

theorem runs_eq_cons_iff :
    runs isBreak cs = w :: ws ↔ ∃ rest, IsFirstRun isBreak cs w rest ∧ runs isBreak rest = ws := by
  constructor
  · intro runs
    rcases exists_isFirstRun isBreak cs with all | ⟨v, rest, run⟩
    · rw [runs_eq_nil_iff.mpr all] at runs
      cases runs
    · obtain ⟨rfl, rfl⟩ := List.cons.inj (run.runs_eq.symm.trans runs)
      exact ⟨rest, run, rfl⟩
  · intro ⟨rest, run, others⟩
    rw [run.runs_eq, others]

theorem runs_append_right (breaks : ∀ c ∈ back, isBreak c = true) (cs : List Char) :
    runs isBreak (cs ++ back) = runs isBreak cs := by
  induction cs with
  | nil => exact runs_eq_nil_iff.mpr breaks
  | cons c cs ih =>
    cases own : isBreak c with
    | true => rw [List.cons_append, runs_cons_break own, runs_cons_break own, ih]
    | false =>
      cases cs with
      | nil =>
        have run : IsFirstRun isBreak ([c] ++ back) [c] back :=
          ⟨⟨[], fun _ hc => (nomatch hc), rfl⟩, List.cons_ne_nil _ _,
            List.forall_mem_singleton.mpr own, fun d hd => breaks d (List.mem_of_mem_head? hd)⟩
        rw [run.runs_eq, runs_eq_nil_iff.mpr breaks, runs_singleton own]
      | cons d cs =>
        rw [List.cons_append] at ih
        rw [List.cons_append, List.cons_append, runs_cons_cons own, runs_cons_cons own, ih]

end Runs

/-! ## Lines of two fields -/

/-- Blanks, if anything. -/
def Blanks (cs : List Char) : Prop := ∀ c ∈ cs, isBlank c = true

/-- A line of two fields. -/
def IsPair (line name value : List Char) : Prop :=
  ∃ front gap back, line = front ++ name ++ gap ++ value ++ back ∧ IsField name ∧ IsField value ∧
    Blanks front ∧ Blanks gap ∧ gap ≠ [] ∧ Blanks back

theorem fields_eq_pair_iff {line name value : List Char} :
    fields line = [name, value] ↔ IsPair line name value := by
  unfold fields
  constructor
  · intro fields
    obtain ⟨rest, ⟨⟨front, blanks, split⟩, nonempty, solid, ends⟩, fields⟩ :=
      runs_eq_cons_iff.mp fields
    obtain ⟨back, ⟨⟨gap, blanks', split'⟩, nonempty', solid', -⟩, fields⟩ :=
      runs_eq_cons_iff.mp fields
    refine ⟨front, gap, back, ?_, ⟨nonempty, solid⟩, ⟨nonempty', solid'⟩, blanks, blanks', ?_,
      runs_eq_nil_iff.mp fields⟩
    · rw [split, split']
      simp only [List.append_assoc]
    · -- Without a gap the second field would be part of the first.
      intro none
      obtain ⟨c, cs, rfl⟩ := List.exists_cons_of_ne_nil nonempty'
      rw [split', none] at ends
      exact Bool.false_ne_true ((solid' c List.mem_cons_self).symm.trans (ends c rfl))
  · intro ⟨front, gap, back, split, hn, hv, blanks, blanks', nonempty, blanks''⟩
    obtain ⟨b, gap, rfl⟩ := List.exists_cons_of_ne_nil nonempty
    have run : IsFirstRun isBlank line name (b :: gap ++ (value ++ back)) := by
      refine ⟨⟨front, blanks, ?_⟩, hn.nonempty, hn.solid, fun c hc => ?_⟩
      · rw [split]
        simp only [List.append_assoc]
      · obtain rfl := Option.some.inj hc
        exact blanks' b List.mem_cons_self
    rw [run.runs_eq, runs_append_left blanks', runs_append_right blanks'',
      runs_solid hv.nonempty hv.solid]

/-! ## Trimming -/

/-- Trimming takes away blanks, and leaves none at the start. -/
theorem exists_trim (line : List Char) : ∃ front back, line = front ++ trim line ++ back ∧
    Blanks front ∧ Blanks back ∧ ∀ c ∈ (trim line).head?, isBlank c = false := by
  have cut : line = line.takeWhile isBlank ++ trimStart line :=
    List.takeWhile_append_dropWhile.symm
  have cut' : trimStart line = trim line ++ (trimStart line).rtakeWhile isBlank :=
    List.rdropWhile_append_rtakeWhile.symm
  refine ⟨_, _, by rw [List.append_assoc, ← cut', ← cut], fun c hc => List.mem_takeWhile_imp hc,
    fun c hc => List.mem_rtakeWhile_imp hc, fun c hc => ?_⟩
  have first : (trimStart line).head? = some c := by
    rw [cut', List.head?_append, Option.mem_def.mp hc]
    rfl
  have stopped := List.head?_dropWhile_not isBlank line
  rw [show (line.dropWhile isBlank).head? = some c from first] at stopped
  exact stopped

theorem fields_trim (line : List Char) : fields (trim line) = fields line := by
  obtain ⟨front, back, split, blanks, blanks', -⟩ := exists_trim line
  conv_rhs => rw [fields, split, runs_append_right blanks', runs_append_left blanks]
  rfl

end Influence.Text
