import Influence.Program.Solution
import Influence.Path.Enumeration

/-!
# Solving by enumeration

Small programs are solved by trying every assignment of their binary variables.

Equalities `Σ z = 1` over binary variables with unit coefficients are one-hot groups: of
each group exactly one member is one.  The other binary variables are zero or one.  For
each such candidate every continuous variable is confined by the constraints in which no
other continuous variable occurs, and set to the end of its interval that the objective
prefers, or to the upper end where the objective does not mention it.  The candidate counts
if every constraint then holds, and the first one that no later candidate beats by more
than the tolerance is the answer.
-/

namespace Influence

/-- Limits of a search. -/
structure SearchSettings (α : Type) where
  maxAssignments : Nat
  tolerance : α
  deriving Repr, DecidableEq

namespace Search

variable {α : Type} [Scalar α]

/-- The members of a constraint that makes a one-hot group. -/
def groupOf? (m : Program α) (c : Constraint α) : Option (List Nat) :=
  let members := c.expr.terms.map (·.1)
  let isUnit := c.expr.terms.all fun (v, k) => k == 1 && m.isBinary v
  if !c.isLazy && c.sense == .eq && c.rhs == 1 && !c.expr.isEmpty && isUnit then some members
  else none

/-- The one-hot groups in order of their constraints; one that shares a member with an
earlier group is left out. -/
def groups (m : Program α) : List (List Nat) :=
  m.constraints.toList.foldl (fun found c =>
    match groupOf? m c with
    | some members =>
      if members.all fun v => !found.any (·.contains v) then found ++ [members] else found
    | none => found) []

/-- The binary variables in no group. -/
def freeBinaries (m : Program α) (groups : List (List Nat)) : List Nat :=
  (List.range m.vars.size).filter fun v => m.isBinary v && !groups.any (·.contains v)

/-- What is enumerated: one choice per group, then a bit per free binary variable. -/
structure Space where
  groups : List (List Nat)
  free : List Nat
  deriving Repr, DecidableEq

/-- The search space of a program. -/
def space (m : Program α) : Space :=
  let groups := groups m
  ⟨groups, freeBinaries m groups⟩

/-- The number of alternatives of each choice. -/
def Space.dims (s : Space) : List Nat := s.groups.map List.length ++ s.free.map fun _ => 2

/-- The number of candidates; one that needs more than 128 bits counts as the greatest that
does not. -/
def Space.count (s : Space) : Nat := (Paths.ofStates s.dims).count?.getD (Word.count128 - 1)

/-- The binary variables set as a candidate says, on top of given values. -/
def Space.assign (s : Space) (choice : Path) (values : Array α) : Array α :=
  let grouped := (s.groups.zip choice).foldl (fun values (members, pick) =>
    members.zipIdx.foldl (fun values (v, k) =>
      values.setIfInBounds v (if k = pick then 1 else 0)) values) values
  (s.free.zip (choice.drop s.groups.length)).foldl (fun values (v, bit) =>
    values.setIfInBounds v (Scalar.ofNat bit)) grouped

/-- The only continuous variable of a constraint, with its coefficient. -/
def single? (m : Program α) (c : Constraint α) : Option (Nat × α) :=
  match c.expr.terms.filter fun (v, _) => m.isContinuous v with
  | [t] => some t
  | _ => none

/-- The constraints that confine one continuous variable, with its coefficients. -/
def confining (m : Program α) (v : Nat) : List (Constraint α × α) :=
  m.constraints.toList.filterMap fun c =>
    match single? m c with
    | some (w, k) => if w = v then some (c, k) else none
    | none => none

/-- A constraint with such a coefficient holds its variable down. -/
def holdsDown (sense : Sense) (k : α) : Bool := match sense with
  | .eq => true
  | .le => decide (0 < k)
  | .ge => decide (k < 0)

/-- A constraint with such a coefficient holds its variable up. -/
def holdsUp (sense : Sense) (k : α) : Bool := sense == .eq || !holdsDown sense k

/-- The interval `(low, high)` cut down by one constraint, once the other variables of the
constraint have their values. -/
def confine (values : Array α) (v : Nat) (bounds : α × α) (c : Constraint α) (k : α) :
    α × α :=
  let (low, high) := bounds
  let others := c.expr.terms.filter fun (w, _) => w ≠ v
  let rest := Scalar.sum (others.map fun (w, d) => d * values.getD w 0)
  let limit := (c.rhs - rest) / k
  (if holdsUp c.sense k then Scalar.larger low limit else low,
    if holdsDown c.sense k then Scalar.smaller high limit else high)

/-- How much better the objective gets per unit of a variable. -/
def preference (m : Program α) (v : Nat) : α :=
  let sign : α := match m.direction with
    | .maximize => 1
    | .minimize => -1
  m.objective.terms.foldl (fun p (w, k) => if w = v then p + sign * k else p) 0

/-- The end of an interval that a preference picks; `none` where the preferred end is
infinite. -/
def pick? (preference : α) (bounds : α × α) : Option α :=
  let (low, high) := bounds
  if 0 < preference && Scalar.isFinite high then some high
  else if preference < 0 && Scalar.isFinite low then some low
  else if !(preference == 0) then none
  else if Scalar.isFinite high then some high
  else if Scalar.isFinite low then some low
  else some 0

/-- A continuous variable of a program with all that settles its value. -/
structure Settling (α : Type) where
  index : Nat
  name : String
  bounds : α × α
  confining : List (Constraint α × α)
  preference : α

/-- The continuous variables of a program, in order. -/
def settlings (m : Program α) : List (Settling α) :=
  m.vars.toList.zipIdx.filterMap fun (v, i) =>
    if v.kind = .continuous then
      some ⟨i, m.exportName i, (v.lower, v.upper), confining m i, preference m i⟩
    else none

/-- Gives one continuous variable its value: `none` where its interval is empty. -/
def Settling.settle (s : Settling α) (tolerance : α) (values : Array α) :
    Except SolverError (Option (Array α)) :=
  let bounds := s.confining.foldl (fun b (c, k) => confine values s.index b c k) s.bounds
  if bounds.2 + tolerance < bounds.1 then .ok none
  else match pick? s.preference bounds with
    | some x => .ok (some (values.setIfInBounds s.index x))
    | none => .error (.unbounded s.name)

/-- Gives all continuous variables their values, one after the other. -/
def settleAll (tolerance : α) : List (Settling α) → Array α →
    Except SolverError (Option (Array α))
  | [], values => .ok (some values)
  | s :: rest, values =>
    match s.settle tolerance values with
    | .ok (some values) => settleAll tolerance rest values
    | other => other

/-- A candidate that satisfies every constraint, with its score: the objective, with the
sign turned when minimizing. -/
structure Scored (α : Type) where
  choice : Path
  score : α
  values : Array α

/-- What the search needs of a program. -/
structure Plan (α : Type) where
  program : Program α
  space : Space
  settlings : List (Settling α)

/-- Prepares a program for the search. -/
def plan (m : Program α) : Plan α := ⟨m, space m, settlings m⟩

/-- A completed candidate with its score. -/
def Plan.scored (p : Plan α) (choice : Path) (values : Array α) : Scored α :=
  let sign : α := match p.program.direction with
    | .maximize => 1
    | .minimize => -1
  ⟨choice, sign * p.program.objective.evaluate values, values⟩

/-- Completes a candidate and checks it. -/
def Plan.attempt (p : Plan α) (tolerance : α) (choice : Path) :
    Except SolverError (Option (Scored α)) := do
  let zeros := Array.replicate p.program.vars.size (0 : α)
  match ← settleAll tolerance p.settlings (p.space.assign choice zeros) with
  | none => pure none
  | some values =>
    if p.program.constraints.all (·.isSatisfied values tolerance) then
      pure (some (p.scored choice values))
    else pure none

/-- The candidates that count, in order, up to the first that cannot be completed. -/
def Plan.accepted (p : Plan α) (tolerance : α) (choices : List Path) : List (Scored α) :=
  let attempts := (choices.map (p.attempt tolerance)).takeWhile Except.isOk
  attempts.filterMap fun
    | .ok found => found
    | .error _ => none

/-- Keeps the better of two candidates; a later one must win by more than the
tolerance. -/
def better (tolerance : α) (best : Option (Scored α)) (s : Scored α) : Option (Scored α) :=
  match best with
  | none => some s
  | some top => if top.score + tolerance < s.score then some s else some top

/-- Gives the continuous variables their values up to one whose interval is empty: whether there is
none, and the values. -/
def settleUntil (tolerance : α) : List (Settling α) → Array α → Except SolverError (Bool × Array α)
  | [], values => .ok (true, values)
  | s :: rest, values =>
    match s.settle tolerance values with
    | .ok (some values) => settleUntil tolerance rest values
    | .ok none => .ok (false, values)
    | .error e => .error e

/-- Completes and checks a candidate on top of the values that the last one left, and keeps the
better of it and the best so far. -/
def Plan.visit (p : Plan α) (tolerance : α) (best : Option (Scored α)) (values : Array α)
    (choice : Path) : Except SolverError (Option (Scored α) × Array α) := do
  let (complete, values) ← settleUntil tolerance p.settlings (p.space.assign choice values)
  if complete && p.program.constraints.all (·.isSatisfied values tolerance) then
    pure (better tolerance best (p.scored choice values), values)
  else pure (best, values)

/-- The best candidate that counts; a candidate that cannot be completed ends the
search. -/
def Plan.search (p : Plan α) (tolerance : α) (choices : List Path) :
    Except SolverError (Option (Scored α)) := do
  let zeros := Array.replicate p.program.vars.size (0 : α)
  let (best, _) ← choices.foldlM (fun (best, values) choice =>
    p.visit tolerance best values choice) (none, zeros)
  pure best

/-- All candidates of a space. -/
def Space.choices (s : Space) : List Path := (Paths.ofStates s.dims).toList

/-- An optimal assignment, by enumeration. -/
def solve (settings : SearchSettings α) (m : Program α) : Except SolverError (Solution α) := do
  let p := plan m
  if settings.maxAssignments < p.space.count then
    .error (.tooLarge p.space.count settings.maxAssignments)
  match ← p.search settings.tolerance p.space.choices with
  | none => .error .infeasible
  | some s => pure ⟨s.values, m.objective.evaluate s.values⟩

end Search

end Influence
