import Influence.Diagram.Assembly
import Influence.Diagram.Tables
import Influence.Encoding.PathVariables
import Influence.Study.DiagramFile

/-!
# Diagrams from files

A definition file becomes a diagram in three steps: its nodes are ordered, its tables are
attached in the order of their names, and the diagram is generated.
-/

namespace Influence

namespace Diagram

variable {α : Type}

/-- The diagram after an action that succeeds. -/
def after (d : Diagram α) (action : DiagramM α Unit) : Except (DiagramError α) (Diagram α) :=
  match action.run.run d with
  | (.ok _, d) => .ok d
  | (.error e, _) => .error e

end Diagram

namespace DiagramFile

variable {α : Type} [Scalar α]

/-- The nodes of a file, ordered. -/
def arrange (f : DiagramFile α) : Except (DiagramError α) (Diagram α) :=
  (Diagram.empty f.generate.strictProbabilities).after do
    f.nodes.forM Diagram.addNode
    Diagram.generateArcs

/-- The table of a named node.  A ragged one has no shape. -/
def tensor (d : Diagram α) (name : String) (n : Nested α) :
    Except (DiagramError α) (Tensor α) := do
  let i ← d.indexOf name
  match n.flatten with
  | .ok (shape, entries) => Tensor.ofData shape entries.toArray
  | .error _ => .error (.dimensionMismatch name (d.expectedShape i) [])

/-- Attaches the tables of a file. -/
def attachTables (f : DiagramFile α) : DiagramM α Unit := do
  f.probabilities.forM fun (name, n) => do
    let t ← (tensor (← get) name n : Except (DiagramError α) _)
    Diagram.setProbabilities name (.plain t)
  f.utilities.forM fun (name, n) => do
    let t ← (tensor (← get) name n : Except (DiagramError α) _)
    Diagram.setUtility name (.plain t)

/-- The diagram of a file with its tables, not generated yet. -/
def assemble (f : DiagramFile α) : Except (DiagramError α) (Diagram α) := do
  (← f.arrange).after f.attachTables

/-- The generated diagram of a file. -/
def build (f : DiagramFile α) : Except (DiagramError α) (Diagram α) := do
  (← f.assemble).after (Diagram.generate f.generate.options)

/-- The options of path variables that a file asks for.  A lazy cut is added later. -/
def pathVariableOptions (f : DiagramFile α) (d : Diagram α) :
    Except (DiagramError α) (PathVariableOptions α) := do
  let m := f.model
  let forbidden ← m.forbidden.mapM fun s => ForbiddenPath.ofNames d s.nodes s.states
  let fixed ← FixedPath.ofNames d m.fixed
  pure {
    names := m.names
    forbidden, fixed
    probabilityCut := m.probabilityCut && !m.lazyProbabilityCut
    scaleFactor := m.scaleFactor
    lowerBound := m.lowerBound }

end DiagramFile

end Influence
