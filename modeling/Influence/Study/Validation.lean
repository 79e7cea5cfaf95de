import Influence.Study.DiagramFile
import Influence.Study.Error
import Influence.Study.Settings

/-!
# Validation of files

What can be decided from a file by itself: names, references between its parts, and
ranges of options.  Shapes of tables need the assembled diagram and are checked when it is
built.  Checks run in file order and the first that fails is reported.
-/

namespace Influence

variable {α : Type} [Scalar α]

/-- Files of another version are refused. -/
def checkVersion (actual : String) : Except (FileError α) Unit :=
  if actual = schemaVersion then .ok () else .error (.version actual)

namespace DiagramFile

/-- Names are not empty and not used twice. -/
def checkNames : List String → List Node → Except (FileError α) Unit
  | _, [] => .ok ()
  | earlier, n :: rest =>
    if n.name = "" then .error (.invalidValue .nodeNames .emptyName)
    else if earlier.contains n.name then .error (.duplicateNode n.name)
    else checkNames (n.name :: earlier) rest

/-- Value nodes have no states; other nodes have some, with different names. -/
def checkStates (n : Node) : Except (FileError α) Unit :=
  let fail (fault : ValueFault α) := .error (.invalidValue (.states n.name) fault)
  if n.isValue then if n.states = [] then .ok () else fail .statesOnValue
  else if n.states = [] then fail .noStates
  else if n.states.Nodup then .ok ()
  else fail .repeatedState

/-- Parents are known, have states, are named once, and are other nodes. -/
def checkParents (f : DiagramFile α) (n : Node) (earlier : List String) :
    List String → Except (FileError α) Unit
  | [] => .ok ()
  | parent :: rest =>
    match f.node? parent with
    | none => .error (.unknownNode (.informationSet n.name) parent)
    | some p =>
      if p.isValue then .error (.invalidValue (.informationSet n.name) (.observedValue parent))
      else if parent = n.name ∨ parent ∈ earlier then
        .error (.invalidValue (.informationSet n.name) (.repeatedParent parent))
      else checkParents f n (parent :: earlier) rest

/-- A table belongs to a node of its kind. -/
def checkTable (f : DiagramFile α) (place : Place) (expected : NodeKind) (name : String) :
    Except (FileError α) Unit :=
  match f.node? name with
  | none => .error (.unknownNode place name)
  | some n =>
    if n.kind = expected then .ok ()
    else .error (.invalidValue (.table place name) (.wrongKind expected n.kind))

/-- A node that has states. -/
def stateNode (f : DiagramFile α) (place : Place) (name : String) :
    Except (FileError α) Node :=
  match f.node? name with
  | some n => if n.isValue then .error (.unknownNode place name) else .ok n
  | none => .error (.unknownNode place name)

/-- A reference means a state of the node. -/
def checkState (place : Place) (n : Node) (ref : StateRef) : Except (FileError α) Unit :=
  if (ref.resolve? n.states).isSome then .ok ()
  else .error (.invalidValue place (.noState n.name ref))

/-- A combination has one state for each of its nodes. -/
def checkCombination (place : Place) (nodes : List Node) (refs : List StateRef) :
    Except (FileError α) Unit :=
  if refs.length ≠ nodes.length then
    .error (.invalidValue place (.tupleLength refs.length nodes.length))
  else (nodes.zip refs).forM fun (n, ref) => checkState place n ref

/-- Forbidden combinations are over nodes with states. -/
def checkForbidden (f : DiagramFile α) (s : ForbiddenSection) (i : Nat) :
    Except (FileError α) Unit := do
  let nodes ← s.nodes.mapM (f.stateNode (.forbidden i))
  s.states.forM (checkCombination (.forbidden i) nodes)

/-- Forced states are states of their nodes. -/
def checkFixed (f : DiagramFile α) (name : String) (ref : StateRef) :
    Except (FileError α) Unit := do
  checkState .fixed (← f.stateNode .fixed name) ref

/-- A tail objective has a level above zero and at most one. -/
def checkObjective (o : ObjectiveSection α) : Except (FileError α) Unit :=
  if o.kind = .expectedValue then .ok ()
  else if o.alpha.any fun a => decide (0 < a) && decide (a ≤ 1) then .ok ()
  else .error (.invalidValue .alpha (.alpha o.alpha))

/-- The checks of a diagram file. -/
def validate (f : DiagramFile α) : Except (FileError α) Unit := do
  checkVersion f.schemaVersion
  if f.nodes = [] then .error .noNodes
  checkNames [] f.nodes
  f.nodes.forM fun n => do
    checkStates n
    f.checkParents n [] n.informationSet
  f.probabilities.forM fun (name, _) => f.checkTable .probabilities .chance name
  f.utilities.forM fun (name, _) => f.checkTable .utilities .value name
  let o := f.generate.options
  if o.positivePathUtility && o.negativePathUtility then
    .error (.invalidValue .generate .bothSigns)
  let scale := f.model.scaleFactor
  if !(Scalar.isFinite scale && decide (0 < scale)) then
    .error (.invalidValue .scaleFactor (.notPositive scale))
  f.model.forbidden.zipIdx.forM fun (s, i) => f.checkForbidden s i
  f.model.fixed.forM fun (name, ref) => f.checkFixed name ref
  checkObjective f.model.objective

end DiagramFile

/-- The checks of a settings file. -/
def Settings.validate (s : Settings α) : Except (FileError α) Unit := do
  checkVersion s.schemaVersion
  if s.solver.maxAssignments = 0 then .error (.invalidValue .maxAssignments .zero)
  let tolerance := s.solver.tolerance
  if !(Scalar.isFinite tolerance && decide (0 ≤ tolerance)) then
    .error (.invalidValue .tolerance (.negative tolerance))
  s.analysis.riskLevels.forM fun level =>
    if 0 ≤ level ∧ level ≤ 1 then .ok () else .error (.invalidValue .riskLevels (.level level))

end Influence
