import Influence.Diagram.Generation
import Influence.Program.Solution

/-!
# Path utilities from program variables

Some diagrams value a path by an expression over variables of the program.  Once the
program is solved, the expressions are evaluated and become an ordinary path utility; a
path without an expression has utility zero.
-/

namespace Influence

/-- Expressions by path, in path order. -/
structure PathExpressions (α : Type) where
  entries : List (Path × LinearExpr α)
  deriving Repr, DecidableEq

namespace PathExpressions

variable {α : Type} [Scalar α]

/-- No expressions. -/
def empty : PathExpressions α := ⟨[]⟩

/-- One expression for every path of a generated diagram. -/
def ofFunction (d : Diagram α) (f : Path → LinearExpr α) :
    Except (DiagramError α) (PathExpressions α) :=
  if d.isGenerated then .ok ⟨(Paths.ofStates d.states).toList.map fun p => (p, f p)⟩
  else .error .notGenerated

/-- Sets the expression of a path. -/
def insert (e : PathExpressions α) (p : Path) (expr : LinearExpr α) : PathExpressions α :=
  ⟨go e.entries⟩
where
  go : List (Path × LinearExpr α) → List (Path × LinearExpr α)
    | [] => [(p, expr)]
    | (q, other) :: rest =>
      if p < q then (p, expr) :: (q, other) :: rest
      else if p = q then (p, expr) :: rest
      else (q, other) :: go rest

/-- The expression of a path. -/
def get? (e : PathExpressions α) (p : Path) : Option (LinearExpr α) := e.entries.lookup p

/-- The value of every expression at a solution. -/
def values (e : PathExpressions α) (s : Solution α) : List (Path × α) :=
  e.entries.map fun (p, expr) => (p, expr.evaluate s.values)

/-- The path utility that the expressions have at a solution. -/
def utility (e : PathExpressions α) (s : Solution α) : PathUtility α :=
  let values := e.values s
  .custom fun p => (values.lookup p).getD 0

end PathExpressions

end Influence
