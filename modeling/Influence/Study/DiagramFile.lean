import Influence.Diagram.Generation
import Influence.Diagram.Nested

/-!
# Diagram files

What a definition file says: the nodes, their tables by name, how the diagram is
generated, and how the program is built.
-/

namespace Influence

/-- How the diagram is generated. -/
structure GenerateSection where
  options : GenerateOptions
  /-- Rows of probability tables must sum to one. -/
  strictProbabilities : Bool
  deriving Repr, DecidableEq

/-- Combinations of states that no path may take, by node name. -/
structure ForbiddenSection where
  nodes : List String
  states : List (List StateRef)
  deriving Repr, DecidableEq

/-- What is optimized. -/
inductive ObjectiveKind where
  | expectedValue
  | conditionalValueAtRisk
  deriving Repr, DecidableEq

/-- The name of an objective in files. -/
def ObjectiveKind.text : ObjectiveKind → String
  | .expectedValue => "expected_value"
  | .conditionalValueAtRisk => "conditional_value_at_risk"

/-- The choice of an objective. -/
structure ObjectiveSection (α : Type) where
  kind : ObjectiveKind
  maximize : Bool
  /-- The level of a tail objective. -/
  alpha : Option α
  deriving Repr, DecidableEq

/-- How the program is built. -/
structure ModelSection (α : Type) where
  names : Bool
  probabilityCut : Bool
  lazyProbabilityCut : Bool
  scaleFactor : α
  lowerBound : Option Bool
  forbidden : List ForbiddenSection
  /-- Forced states by node name, ascending. -/
  fixed : List (String × StateRef)
  objective : ObjectiveSection α
  deriving Repr, DecidableEq

/-- A definition file. -/
structure DiagramFile (α : Type) where
  schemaVersion : String
  description : Option String
  nodes : List Node
  /-- Probability tables by node name, ascending. -/
  probabilities : List (String × Nested α)
  /-- Utility tables by node name, ascending. -/
  utilities : List (String × Nested α)
  generate : GenerateSection
  model : ModelSection α

/-- The version of files that is understood. -/
def schemaVersion : String := "1.0.0"

/-- Defaults are filled in, rows are checked, and utilities are not shifted. -/
def GenerateSection.default : GenerateSection := ⟨⟨true, true, false, false⟩, true⟩

/-- The expected utility is maximized. -/
def ObjectiveSection.default {α : Type} : ObjectiveSection α := ⟨.expectedValue, true, none⟩

/-- Names are given, the cut is added at once, and probabilities are not scaled. -/
def ModelSection.default {α : Type} [Scalar α] : ModelSection α :=
  ⟨true, true, false, 1, none, [], [], .default⟩

namespace DiagramFile

variable {α : Type}

/-- The first node of a name. -/
def node? (f : DiagramFile α) (name : String) : Option Node := f.nodes.find? (·.name == name)

/-- The number of paths, counted from the declared states. -/
def pathCount? (f : DiagramFile α) : Option Nat :=
  Paths.checkedProduct ((f.nodes.filter fun n => !n.isValue).map (·.numStates))

/-- The number of nodes of a kind. -/
def countOf (f : DiagramFile α) (kind : NodeKind) : Nat :=
  f.nodes.countP (·.kind == kind)

end DiagramFile

end Influence
