import Influence.Program.Error

/-!
# Causes of failure in files

A file cannot be read, is no document of the expected structure, or says something that
does not fit together.  A place names the part of the file that is at fault.
-/

namespace Influence

/-- A part of a diagram or settings file. -/
inductive Place where
  | nodeNames
  | states (node : String)
  | informationSet (node : String)
  | probabilities
  | utilities
  | table (within : Place) (node : String)
  | generate
  | scaleFactor
  | forbidden (i : Nat)
  | fixed
  | alpha
  | maxAssignments
  | tolerance
  | riskLevels
  deriving Repr, DecidableEq

/-- The path of a part. -/
def Place.text : Place → String
  | nodeNames => "nodes.name"
  | states node => "nodes." ++ node ++ ".states"
  | informationSet node => "nodes." ++ node ++ ".information_set"
  | probabilities => "probabilities"
  | utilities => "utilities"
  | table place node => place.text ++ "." ++ node
  | generate => "generate"
  | scaleFactor => "model.probability_scale_factor"
  | forbidden i => "model.forbidden_paths[" ++ i.repr ++ "]"
  | fixed => "model.fixed"
  | alpha => "model.objective.alpha"
  | maxAssignments => "solver.max_assignments"
  | tolerance => "solver.tolerance"
  | riskLevels => "analysis.risk_levels"

/-- What is wrong with a value. -/
inductive ValueFault (α : Type) where
  | emptyName
  | statesOnValue
  | noStates
  | repeatedState
  | observedValue (node : String)
  | repeatedParent (node : String)
  | wrongKind (expected actual : NodeKind)
  | bothSigns
  | notPositive (x : α)
  | tupleLength (entries nodes : Nat)
  | noState (node : String) (state : StateRef)
  | alpha (x : Option α)
  | zero
  | negative (x : α)
  | level (x : α)
  deriving Repr, DecidableEq

/-- The name of a kind at the start of a sentence. -/
def NodeKind.title : NodeKind → String
  | .chance => "Chance"
  | .decision => "Decision"
  | .value => "Value"

/-- The wording of a fault. -/
def ValueFault.text {α : Type} [Numeral α] : ValueFault α → String
  | emptyName => "node names must be non-empty"
  | statesOnValue => "value nodes have no states"
  | noStates => "at least one state is required"
  | repeatedState => "state names must be unique"
  | observedValue node => "value node '" ++ node ++ "' cannot be observed"
  | repeatedParent node => "'" ++ node ++ "' listed twice or refers to the node itself"
  | wrongKind expected actual =>
    "expected a " ++ expected.title ++ " node, found " ++ actual.title
  | bothSigns => "positive_path_utility and negative_path_utility are exclusive"
  | notPositive x => "Must be positive, got " ++ Numeral.write x
  | tupleLength entries nodes =>
    "state tuple has " ++ entries.repr ++ " entries for " ++ nodes.repr ++ " nodes"
  | noState node state => "node '" ++ node ++ "' has no state " ++ state.text
  | alpha none => "Must be in (0, 1], got None"
  | alpha (some x) => "Must be in (0, 1], got Some(" ++ Numeral.quote x ++ ")"
  | zero => "Must be positive"
  | negative x => "Must be non-negative, got " ++ Numeral.write x
  | level x => "Must be in [0, 1], got " ++ Numeral.write x

/-- Why a file is refused. -/
inductive FileError (α : Type) where
  /-- The system could not read it. -/
  | io (path reason : String)
  /-- It is no document of the expected structure. -/
  | parse
  | version (actual : String)
  | noNodes
  | duplicateNode (name : String)
  | unknownNode (place : Place) (name : String)
  | invalidValue (place : Place) (fault : ValueFault α)
  deriving Repr, DecidableEq

namespace FileError

variable {α : Type}

/-- The number that reports give to a cause. -/
def code : FileError α → Nat
  | io .. => 60
  | parse => 61
  | noNodes | duplicateNode .. => 63
  | unknownNode .. => 64
  | invalidValue .. => 65
  | version .. => 66

/-- The message of a cause. -/
def message [Numeral α] : FileError α → String
  | io path reason => "I/O error: " ++ path ++ ": " ++ reason
  | parse => "Parse error: not a document of the expected structure"
  | noNodes => "Semantic validation failed: diagram declares no nodes"
  | duplicateNode name => "Semantic validation failed: duplicate node name '" ++ name ++ "'"
  | unknownNode place name => "Unknown node referenced by " ++ place.text ++ ": " ++ name
  | invalidValue place fault => "Invalid value for " ++ place.text ++ ": " ++ fault.text
  | version actual => "Version mismatch: expected 1.0.0, got " ++ actual

end FileError

end Influence
