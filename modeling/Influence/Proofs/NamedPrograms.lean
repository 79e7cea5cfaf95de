import Influence.Proofs.Building
import Influence.Proofs.NameFamilies

/-!
# Programs by the names of their variables

In exported files variables go by their names.  `SameByName` says when two programs are the same if
only names count, and `Exportable` which programs their files tell everything about.
-/

namespace Influence

variable {α : Type}

namespace Program

/-! ## Names for numbers -/

/-- The terms of an expression, by the names of their variables. -/
def namedTerms (m : Program α) (e : LinearExpr α) : List (String × α) :=
  e.terms.map fun t => (m.exportName t.1, t.2)

/-- A constraint by the names of its variables. -/
structure NamedConstraint (α : Type) where
  terms : List (String × α)
  sense : Sense
  rhs : α
  isLazy : Bool

/-- The constraint with the names of a program. -/
def namedConstraint (m : Program α) (c : Constraint α) : NamedConstraint α :=
  ⟨m.namedTerms c.expr, c.sense, c.rhs, c.isLazy⟩

/-- A variable with the name that it has in exported files. -/
@[ext]
structure NamedVariable (α : Type) where
  name : String
  kind : VarKind
  lower : α
  upper : α

/-- The variables of a program under their names. -/
def namedVariables (m : Program α) : List (NamedVariable α) :=
  m.vars.toList.zipIdx.map fun e => ⟨m.exportName e.2, e.1.kind, e.1.lower, e.1.upper⟩

variable [Scalar α]

/-- With variables taken by name, the programs are the same up to the order of their variables and
to the sign of a constant that is zero. -/
structure SameByName (m m' : Program α) : Prop where
  direction : m.direction = m'.direction
  objective : m.namedTerms m.objective = m'.namedTerms m'.objective
  constant : m.objective.constant = m'.objective.constant ∨
    (m.objective.constant == 0) = true ∧ (m'.objective.constant == 0) = true
  constraints : m.constraints.toList.map m.namedConstraint =
    m'.constraints.toList.map m'.namedConstraint
  vars : List.Perm m.namedVariables m'.namedVariables

/-! ## What calls keep -/

/-- No coefficient is zero, and binary variables lie between zero and one. -/
structure Tidy (m : Program α) : Prop where
  objective : ∀ t ∈ m.objective.terms, (t.2 == 0) = false
  constraints : ∀ c ∈ m.constraints, ∀ t ∈ c.expr.terms, (t.2 == 0) = false
  bits : ∀ v ∈ m.vars, v.kind = .binary → v.IsBit

theorem nonzero_compact (e : LinearExpr α) : ∀ t ∈ e.compact.terms, (t.2 == 0) = false := by
  intro t ht
  have kept := (List.mem_filter.mp ht).2
  rwa [Bool.not_eq_true'] at kept

theorem Tidy.push {m : Program α} (h : m.Tidy) {v : Variable α} (bit : v.kind = .binary → v.IsBit) :
    Tidy { m with vars := m.vars.push v } where
  objective := h.objective
  constraints := h.constraints
  bits := by
    intro w hw
    obtain old | rfl := Array.mem_push.mp hw
    · exact h.bits w old
    · exact bit

theorem keeps_tidy_addVariable {v : Variable α} (bit : v.kind = .binary → v.IsBit) :
    Keeps (Tidy (α := α)) (addVariable v) := by
  intro m h
  refine (ends_addVariable v m).mono fun r t he => ?_
  obtain ⟨_, _, _, _, _, rfl⟩ | ⟨-, -, rfl⟩ := he
  · exact h
  · exact h.push bit

theorem Collected.tidy {m : Program α} (h : m.Collected) : m.Tidy := by
  induction h with
  | empty =>
    refine ⟨fun t ht => ?_, fun c hc => ?_, fun v hv => ?_⟩
    · cases ht
    · exact absurd hc (Array.not_mem_empty c)
    · exact absurd hv (Array.not_mem_empty v)
  | addContinuous _ _ _ _ ih =>
    exact keeps_tidy_addVariable (fun kind => by cases kind) _ ih
  | addBinary _ _ ih => exact keeps_tidy_addVariable (fun _ => ⟨rfl, rfl, rfl⟩) _ ih
  | constrain _ expr _ _ _ ih =>
    refine ⟨ih.objective, fun c hc => ?_, ih.bits⟩
    obtain old | rfl := Array.mem_push.mp hc
    · exact ih.constraints c old
    · exact nonzero_compact expr
  | withObjective _ _ expr ih => exact ⟨nonzero_compact expr, ih.constraints, ih.bits⟩

/-! ## Programs to export -/

/-- Calls lead to the program, its names are identifiers, its coefficients finite, and its bounds
finite or infinite to their side.  Right sides and the constant may be anything. -/
structure Exportable (m : Program α) : Prop where
  collected : m.Collected
  names : ∀ name ∈ m.exportNames, IsIdentifier name
  objective : ∀ t ∈ m.objective.terms, Scalar.isFinite t.2 = true
  constraints : ∀ c ∈ m.constraints, ∀ t ∈ c.expr.terms, Scalar.isFinite t.2 = true
  lower : ∀ v ∈ m.vars, Scalar.isFinite v.lower = true ∨ v.lower = -Scalar.infinity
  upper : ∀ v ∈ m.vars, Scalar.isFinite v.upper = true ∨ v.upper = Scalar.infinity

theorem isIdentifier_number (v : ℕ) : IsIdentifier ("v" ++ v.repr) where
  letter := ⟨'v', v.repr.toList, by rw [String.toList_append]; rfl, rfl⟩
  word := (isWord_of_all (by decide)).append (isWord_repr v)

theorem Exportable.isIdentifier_exportName {m : Program α} (h : m.Exportable) (v : ℕ) :
    IsIdentifier (m.exportName v) := by
  by_cases inside : v < m.vars.size
  · exact h.names _ (List.mem_map_of_mem (List.mem_range.mpr inside))
  · rw [exportName, Array.getElem?_eq_none (Nat.not_lt.mp inside)]
    exact isIdentifier_number v

end Program

end Influence
