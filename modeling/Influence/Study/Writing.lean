import Influence.Outcome.Report
import Influence.Study.DiagramFile
import Influence.Study.Settings

/-!
# Files as documents

The document of a file has every field, defaults included, in declaration order.
-/

namespace Influence

mutual

/-- The document of a nested array. -/
def Nested.document : Nested Float → Document
  | .scalar x => .real x
  | .array items => .list (Nested.documents items)

/-- The documents of the items of an array. -/
def Nested.documents : List (Nested Float) → List Document
  | [] => []
  | n :: ns => n.document :: Nested.documents ns

end

namespace Document

/-- A value that may be missing. -/
def optional {β : Type} (write : β → Document) : Option β → Document
  | some x => write x
  | none => null

/-- A map. -/
def ofMap {β : Type} (write : β → Document) (m : List (String × β)) : Document :=
  table (m.map fun (k, x) => (k, write x))

end Document

open Document

/-- The document of a state reference. -/
def StateRef.document : StateRef → Document
  | .index i => .integer i
  | .name s => .text s

/-- The document of a node. -/
def Node.document (n : Node) : Document :=
  .table [("name", .text n.name), ("kind", .text n.kind.text),
    ("information_set", textList n.informationSet), ("states", textList n.states)]

/-- The document of the generation section. -/
def GenerateSection.document (g : GenerateSection) : Document :=
  .table [("default_probability", .bool g.options.defaultProbability),
    ("default_utility", .bool g.options.defaultUtility),
    ("positive_path_utility", .bool g.options.positivePathUtility),
    ("negative_path_utility", .bool g.options.negativePathUtility),
    ("strict_probabilities", .bool g.strictProbabilities)]

/-- The document of forbidden combinations. -/
def ForbiddenSection.document (s : ForbiddenSection) : Document :=
  .table [("nodes", textList s.nodes),
    ("states", .list (s.states.map fun refs => .list (refs.map (·.document))))]

/-- The document of the choice of an objective. -/
def ObjectiveSection.document (o : ObjectiveSection Float) : Document :=
  .table [("kind", .text o.kind.text), ("maximize", .bool o.maximize),
    ("alpha", optional .real o.alpha)]

/-- The document of the program section. -/
def ModelSection.document (m : ModelSection Float) : Document :=
  .table [("names", .bool m.names), ("probability_cut", .bool m.probabilityCut),
    ("lazy_probability_cut", .bool m.lazyProbabilityCut),
    ("probability_scale_factor", .real m.scaleFactor),
    ("lower_bound", optional .bool m.lowerBound),
    ("forbidden_paths", .list (m.forbidden.map (·.document))),
    ("fixed", ofMap StateRef.document m.fixed),
    ("objective", m.objective.document)]

/-- The document of a definition file. -/
def DiagramFile.document (f : DiagramFile Float) : Document :=
  .table [("schema_version", .text f.schemaVersion),
    ("description", optional .text f.description),
    ("nodes", .list (f.nodes.map (·.document))),
    ("probabilities", ofMap Nested.document f.probabilities),
    ("utilities", ofMap Nested.document f.utilities),
    ("generate", f.generate.document),
    ("model", f.model.document)]

/-- The document of a settings file. -/
def Settings.document (s : Settings Float) : Document :=
  .table [("schema_version", .text s.schemaVersion),
    ("solver", .table [("max_assignments", .integer s.solver.maxAssignments),
      ("tolerance", .real s.solver.tolerance)]),
    ("analysis", .table [("risk_levels", .list (s.analysis.riskLevels.map .real)),
      ("precision", optional (fun n => .integer (n : Nat)) s.analysis.precision)])]

end Influence
