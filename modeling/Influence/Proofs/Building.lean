import Mathlib.Data.List.GetD
import Influence.Encoding.PathVariables
import Influence.Proofs.Paths
import Influence.Proofs.Success

/-!
# What building actions add

Every action of the encoders only appends variables and constraints to its program
(`Program.Grows`).  The lemmas of this module say which: `DecisionVariables.build` appends
blocks of bits with one constraint each (`succeeds_build_decisions`), and `PathVariables.build`
one variable per admissible path, with the constraints that `pathConstraints` lists, and the
cut if it is asked for (`succeeds_build_paths`).
-/

namespace Influence

variable {α : Type}

namespace Program

/-- The second program has these variables and constraints behind those of the first. -/
structure Grows (m m' : Program α) (vs : List (Variable α)) (cs : List (Constraint α)) :
    Prop where
  vars : m'.vars.toList = m.vars.toList ++ vs
  constraints : m'.constraints.toList = m.constraints.toList ++ cs

theorem Grows.refl (m : Program α) : Grows m m [] [] := ⟨by simp, by simp⟩

theorem Grows.trans {m₁ m₂ m₃ : Program α} {vs ws : List (Variable α)}
    {cs ds : List (Constraint α)} (h₁ : Grows m₁ m₂ vs cs) (h₂ : Grows m₂ m₃ ws ds) :
    Grows m₁ m₃ (vs ++ ws) (cs ++ ds) :=
  ⟨by rw [h₂.vars, h₁.vars, List.append_assoc],
    by rw [h₂.constraints, h₁.constraints, List.append_assoc]⟩

theorem Grows.size {m m' : Program α} {vs : List (Variable α)} {cs : List (Constraint α)}
    (h : Grows m m' vs cs) : m'.vars.size = m.vars.size + vs.length := by
  rw [← Array.length_toList, h.vars, List.length_append, Array.length_toList]

/-- Adding a variable appends it. -/
theorem eq_push_of_addVariable {v : Variable α} {m m' : Program α} {k : ℕ}
    (h : Succeeds (addVariable v) m k m') :
    k = m.vars.size ∧ m' = { m with vars := m.vars.push v } := by
  unfold addVariable at h
  rw [succeeds_get_bind] at h
  dsimp only at h
  split at h
  case h_1 name _ =>
    split at h
    case isTrue => exact absurd h not_succeeds_throw
    case isFalse =>
      rw [succeeds_set_bind, succeeds_pure] at h
      exact ⟨h.1.symm, h.2.symm⟩
  case h_2 =>
    rw [succeeds_set_bind, succeeds_pure] at h
    exact ⟨h.1.symm, h.2.symm⟩

theorem succeeds_addVariable {v : Variable α} {m m' : Program α} {k : ℕ}
    (h : Succeeds (addVariable v) m k m') : k = m.vars.size ∧ Grows m m' [v] [] := by
  obtain ⟨rfl, rfl⟩ := eq_push_of_addVariable h
  exact ⟨rfl, by simp, by simp⟩

theorem succeeds_mapM_addVariable {β : Type} {w : β → Variable α} {bs : List β}
    {m m' : Program α} {ks : List ℕ}
    (h : Succeeds (bs.mapM fun b => addVariable (w b)) m ks m') :
    ks = List.range' m.vars.size bs.length ∧ Grows m m' (bs.map w) [] := by
  induction bs generalizing m ks with
  | nil =>
    obtain ⟨rfl, rfl⟩ := succeeds_mapM_nil.mp h
    exact ⟨rfl, .refl _⟩
  | cons b bs ih =>
    obtain ⟨k, rest, t, hb, hrest, rfl⟩ := succeeds_mapM_cons.mp h
    obtain ⟨rfl, grows⟩ := succeeds_addVariable hb
    obtain ⟨rfl, grows'⟩ := ih hrest
    refine ⟨?_, grows.trans grows'⟩
    rw [grows.size]
    rfl

variable [Scalar α]

/-- Adding a constraint appends it in normal form. -/
theorem eq_withConstraint_of_constrain {expr : LinearExpr α} {sense : Sense} {rhs : α}
    {isLazy : Bool} {m m' : Program α} {k : ℕ}
    (h : Succeeds (constrain expr sense rhs isLazy) m k m') :
    k = m.constraints.size ∧ m' = m.withConstraint (normalized expr sense rhs isLazy) := by
  unfold constrain at h
  rw [succeeds_get_bind, succeeds_set_bind, succeeds_pure] at h
  exact ⟨h.1.symm, h.2.symm⟩

theorem succeeds_constrain {expr : LinearExpr α} {sense : Sense} {rhs : α} {isLazy : Bool}
    {m m' : Program α} {k : ℕ} (h : Succeeds (constrain expr sense rhs isLazy) m k m') :
    k = m.constraints.size ∧ Grows m m' [] [normalized expr sense rhs isLazy] := by
  obtain ⟨rfl, rfl⟩ := eq_withConstraint_of_constrain h
  exact ⟨rfl, by simp [withConstraint], by simp [withConstraint]⟩

end Program

/-- A computation on the diagram leaves the program alone. -/
theorem succeeds_lift_bind {β γ : Type} {y : Except (DiagramError α) β} {f : β → ProgramM α γ}
    {m m' : Program α} {c : γ} :
    Succeeds ((liftM y : ProgramM α β) >>= f) m c m' ↔ ∃ b, y = .ok b ∧ Succeeds (f b) m c m' := by
  constructor
  · intro h
    obtain ⟨b, lifted, h⟩ := succeeds_liftM_bind.mp h
    cases y with
    | error e => cases lifted
    | ok c =>
      obtain rfl : c = b := by injection lifted
      exact ⟨c, rfl, h⟩
  · rintro ⟨b, rfl, h⟩
    exact h

variable [Scalar α]

open Program

/-- A binary variable. -/
structure Variable.IsBit (v : Variable α) : Prop where
  kind : v.kind = .binary
  lower : v.lower = 0
  upper : v.upper = 1

/-- A continuous variable between zero and one. -/
structure Variable.IsShare (v : Variable α) : Prop where
  kind : v.kind = .continuous
  lower : v.lower = 0
  upper : v.upper = 1

/-! ## Decision variables -/

/-- Exactly one of the variables is one. -/
def oneHot (group : List ℕ) : Constraint α :=
  normalized (LinearExpr.sum (group.map LinearExpr.var)) .eq 1 false

/-- The variables of a node, one block per information state. -/
def LocalVariables.blocks (l : LocalVariables) : List (List ℕ) :=
  (List.range l.shape.prod).map fun k => (l.vars.drop (k * l.states)).take l.states

/-- The variables are those of a decision node. -/
structure LocalVariables.IsFor (d : Diagram α) (l : LocalVariables) : Prop where
  name : l.name = d.nameOf l.node
  informationSet : l.informationSet = d.informationSet l.node
  shape : l.shape = d.informationShape l.node
  states : l.states = d.states.getD l.node 0
  length : l.vars.length = l.shape.prod * l.states

namespace DecisionVariables

theorem succeeds_addGroup {names : Bool} {node : ℕ} {name : String} {states : ℕ} {q g : List ℕ}
    {m m' : Program α} (h : Succeeds (addGroup names node name states q) m g m') :
    g = List.range' m.vars.size states ∧
      ∃ vs, vs.length = states ∧ (∀ v ∈ vs, v.IsBit) ∧ Grows m m' vs [oneHot g] := by
  obtain ⟨group, t, added, h⟩ := succeeds_bind.mp h
  obtain ⟨_, u, constrained, h⟩ := succeeds_bind.mp h
  obtain ⟨rfl, rfl⟩ := succeeds_pure.mp h
  obtain ⟨rfl, grows⟩ := succeeds_mapM_addVariable added
  obtain ⟨-, grows'⟩ := succeeds_constrain constrained
  have both := grows.trans grows'
  rw [List.append_nil, List.nil_append, List.length_range] at both
  rw [List.length_range]
  refine ⟨rfl, _, ?_, fun v hv => ?_, both⟩
  · rw [List.length_map, List.length_range]
  · obtain ⟨s, -, rfl⟩ := List.mem_map.mp hv
    exact ⟨rfl, rfl, rfl⟩

theorem succeeds_mapM_addGroup {names : Bool} {node : ℕ} {name : String} {states : ℕ}
    {qs groups : List (List ℕ)} {m m' : Program α}
    (h : Succeeds (qs.mapM (addGroup names node name states)) m groups m') :
    groups.length = qs.length ∧ (∀ g ∈ groups, g.length = states) ∧
      groups.flatten = List.range' m.vars.size (qs.length * states) ∧
      ∃ vs, vs.length = qs.length * states ∧ (∀ v ∈ vs, v.IsBit) ∧
        Grows m m' vs (groups.map oneHot) := by
  induction qs generalizing m groups with
  | nil =>
    obtain ⟨rfl, rfl⟩ := succeeds_mapM_nil.mp h
    exact ⟨rfl, by simp, by simp, [], by simp, by simp, .refl _⟩
  | cons q qs ih =>
    obtain ⟨g, rest, t, hq, hrest, rfl⟩ := succeeds_mapM_cons.mp h
    obtain ⟨rfl, vs, length, bits, grows⟩ := succeeds_addGroup hq
    obtain ⟨count, widths, flat, ws, length', bits', grows'⟩ := ih hrest
    refine ⟨by rw [List.length_cons, count, List.length_cons], ?_, ?_, vs ++ ws, ?_, ?_,
      grows.trans grows'⟩
    · exact List.forall_mem_cons.mpr ⟨List.length_range', widths⟩
    · rw [List.flatten_cons, flat, grows.size, length, List.range'_append_1, List.length_cons,
        Nat.succ_mul, Nat.add_comm]
    · rw [List.length_append, length, length', List.length_cons, Nat.succ_mul, Nat.add_comm]
    · exact List.forall_mem_append.mpr ⟨bits, bits'⟩

theorem succeeds_addLocal {d : Diagram α} {names : Bool} {node : ℕ} {l : LocalVariables}
    {m m' : Program α} (h : Succeeds (addLocal d names node) m l m') :
    l.node = node ∧ l.IsFor d ∧ l.vars = List.range' m.vars.size l.vars.length ∧
      ∃ vs, vs.length = l.vars.length ∧ (∀ v ∈ vs, v.IsBit) ∧
        Grows m m' vs (l.blocks.map oneHot) := by
  obtain ⟨groups, t, added, h⟩ := succeeds_bind.mp h
  obtain ⟨rfl, rfl⟩ := succeeds_pure.mp h
  obtain ⟨count, widths, flat, vs, length, bits, grows⟩ := succeeds_mapM_addGroup added
  rw [Paths.length_toList_ofStates] at count flat length
  have total : groups.flatten.length = (d.informationShape node).prod * d.states.getD node 0 := by
    rw [flat, List.length_range']
  have blocks : (List.range (d.informationShape node).prod).map (fun k =>
      (groups.flatten.drop (k * d.states.getD node 0)).take (d.states.getD node 0)) = groups := by
    refine List.ext_getElem (by simpa using count.symm) fun k _ hk => ?_
    rw [List.getElem_map, List.getElem_range, flatten_drop_take_block widths hk]
  refine ⟨rfl, ⟨rfl, rfl, rfl, rfl, total⟩, ?_, vs, length.trans total.symm, bits, ?_⟩
  · change groups.flatten = List.range' _ groups.flatten.length
    rw [total, flat]
  · rw [LocalVariables.blocks, blocks]
    exact grows

/-- The variables of all decision nodes in order. -/
def vars (z : DecisionVariables) : List ℕ := z.locals.flatMap (·.vars)

/-- The one-hot constraints of all decision nodes in order. -/
def blocks (z : DecisionVariables) : List (List ℕ) := z.locals.flatMap (·.blocks)

/-- Decision variables that belong to a diagram and are numbered from a first one on. -/
structure LaidOut (d : Diagram α) (z : DecisionVariables) (start : ℕ) : Prop where
  nodes : z.locals.map (·.node) = d.decision
  locals : ∀ l ∈ z.locals, l.IsFor d
  vars : z.vars = List.range' start z.vars.length

theorem succeeds_mapM_addLocal {d : Diagram α} {names : Bool} {nodes : List ℕ}
    {ls : List LocalVariables} {m m' : Program α}
    (h : Succeeds (nodes.mapM (addLocal d names)) m ls m') :
    ls.map (·.node) = nodes ∧ (∀ l ∈ ls, l.IsFor d) ∧
      ls.flatMap (·.vars) = List.range' m.vars.size (ls.flatMap (·.vars)).length ∧
      ∃ vs, vs.length = (ls.flatMap (·.vars)).length ∧ (∀ v ∈ vs, v.IsBit) ∧
        Grows m m' vs ((ls.flatMap (·.blocks)).map oneHot) := by
  induction nodes generalizing m ls with
  | nil =>
    obtain ⟨rfl, rfl⟩ := succeeds_mapM_nil.mp h
    exact ⟨rfl, by simp, by simp, [], by simp, by simp, .refl _⟩
  | cons node nodes ih =>
    obtain ⟨l, rest, t, hl, hrest, rfl⟩ := succeeds_mapM_cons.mp h
    obtain ⟨rfl, isFor, numbered, vs, length, bits, grows⟩ := succeeds_addLocal hl
    obtain ⟨rfl, isFor', numbered', ws, length', bits', grows'⟩ := ih hrest
    refine ⟨rfl, List.forall_mem_cons.mpr ⟨isFor, isFor'⟩, ?_, vs ++ ws, ?_,
      List.forall_mem_append.mpr ⟨bits, bits'⟩, ?_⟩
    · rw [List.flatMap_cons, List.length_append, ← List.range'_append_1, ← numbered, ← length,
        ← grows.size, ← numbered']
    · rw [List.length_append, length, length', List.flatMap_cons, List.length_append]
    · rw [List.flatMap_cons, List.map_append]
      exact grows.trans grows'

/-- Only a generated diagram gets decision variables. -/
theorem isGenerated_of_build {d : Diagram α} {names : Bool} {z : DecisionVariables}
    {m m' : Program α} (h : Succeeds (build d names) m z m') : d.isGenerated = true := by
  by_contra generated
  rw [Bool.not_eq_true] at generated
  unfold build at h
  rw [generated] at h
  exact absurd h not_succeeds_throw

/-- Building the decision variables of a diagram appends one block of bits per information
state, each with its one-hot constraint. -/
theorem succeeds_build_decisions {d : Diagram α} {names : Bool} {z : DecisionVariables}
    {m m' : Program α} (h : Succeeds (build d names) m z m') :
    LaidOut d z m.vars.size ∧
      ∃ vs, vs.length = z.vars.length ∧ (∀ v ∈ vs, v.IsBit) ∧
        Grows m m' vs (z.blocks.map oneHot) := by
  have generated := isGenerated_of_build h
  unfold build at h
  rw [generated] at h
  obtain ⟨ls, t, added, h⟩ := succeeds_bind.mp h
  obtain ⟨rfl, rfl⟩ := succeeds_pure.mp h
  obtain ⟨nodes, isFor, numbered, grows⟩ := succeeds_mapM_addLocal added
  exact ⟨⟨nodes, isFor, numbered⟩, grows⟩

end DecisionVariables

/-! ## Path variables -/

namespace PathVariables

/-- The decision variables that a path selects at given nodes. -/
def selectedAt (z : DecisionVariables) (p : Path) (nodes : List ℕ) : List ℕ :=
  nodes.filterMap (z.variableOn? · p)

/-- A path variable is at most a decision variable. -/
def linkTo (x v : ℕ) : Constraint α :=
  normalized (LinearExpr.var x - LinearExpr.var v) .le 0 false

/-- What is left of a path variable when decision variables are taken off. -/
def linked (x : ℕ) (vs : List ℕ) : LinearExpr α :=
  vs.foldl (fun e v => e - LinearExpr.var v) (LinearExpr.var x)

/-- The constraints of a path variable. -/
def pathConstraints (d : Diagram α) (z : DecisionVariables) (o : PathVariableOptions α)
    (p : Path) (x : ℕ) : List (Constraint α) :=
  (selectedAt z p d.decision).map (linkTo x) ++
    if bindsBelow d o && !d.decision.isEmpty then
      [normalized (linked x (selectedAt z p d.decision)) .ge
        (1 - Scalar.ofNat d.decision.length) false]
    else []

/-- The path gets a variable. -/
def isAdmitted (d : Diagram α) (forbidden : List ForbiddenPath) (p : Path) : Bool :=
  match omission? d forbidden p with
  | .ok none => true
  | _ => false

/-- A path that is evaluated gets a variable if it has positive probability and takes no forbidden
combination. -/
theorem isAdmitted_iff {d : Diagram α} {forbidden : List ForbiddenPath} {p : Path} :
    isAdmitted d forbidden p = true ↔
      (∃ w, d.probabilityOf p = .ok w ∧ (w == 0) = false) ∧
        ∀ f ∈ forbidden, f.covers p = false := by
  unfold isAdmitted omission?
  cases known : d.probabilityOf p with
  | error e => exact iff_of_false (by simp [bind, Except.bind]) (by simp)
  | ok w =>
    have weighed : (∃ v, (Except.ok w : Except (DiagramError α) α) = .ok v ∧ (v == 0) = false) ↔
        (w == 0) = false :=
      ⟨fun ⟨v, same, nonzero⟩ => Except.ok.inj same ▸ nonzero, fun nonzero => ⟨w, rfl, nonzero⟩⟩
    rw [weighed]
    dsimp only [bind, Except.bind]
    cases zero : w == 0 with
    | true => exact iff_of_false (by simp [pure, Except.pure]) (by simp)
    | false =>
      by_cases hit : forbidden.any (·.covers p) = true
      · rcases List.any_eq_true.mp hit with ⟨f, hf, covers⟩
        refine iff_of_false (by simp [hit, pure, Except.pure]) fun h => ?_
        rw [h.2 f hf] at covers
        cases covers
      · have none : ∀ f ∈ forbidden, f.covers p = false := by simpa using hit
        exact iff_of_true (by simp [hit, pure, Except.pure]) ⟨rfl, none⟩

theorem succeeds_link {d : Diagram α} {z : DecisionVariables} {p : Path} {x : ℕ} {nodes : List ℕ}
    {e e' : LinearExpr α} {m m' : Program α} (h : Succeeds (link d z p x nodes e) m e' m') :
    nodes.map (z.variableOn? · p) = (selectedAt z p nodes).map some ∧
      e' = (selectedAt z p nodes).foldl (fun e v => e - LinearExpr.var v) e ∧
      Grows m m' [] ((selectedAt z p nodes).map (linkTo x)) := by
  induction nodes generalizing m e with
  | nil =>
    obtain ⟨rfl, rfl⟩ := succeeds_pure.mp h
    exact ⟨rfl, rfl, .refl _⟩
  | cons node nodes ih =>
    unfold link at h
    split at h
    case h_1 => exact absurd h not_succeeds_throw
    case h_2 v hv =>
      obtain ⟨_, t, constrained, h⟩ := succeeds_bind.mp h
      obtain ⟨-, grows⟩ := succeeds_constrain constrained
      obtain ⟨selects, rfl, grows'⟩ := ih h
      have cons : selectedAt z p (node :: nodes) = v :: selectedAt z p nodes :=
        List.filterMap_cons_some hv
      rw [cons]
      exact ⟨by rw [List.map_cons, hv, selects]; rfl, rfl, grows.trans grows'⟩

theorem succeeds_addPath {d : Diagram α} {z : DecisionVariables} {o : PathVariableOptions α}
    {p : Path} {x : ℕ} {m m' : Program α} (h : Succeeds (addPath d z o p) m x m') :
    x = m.vars.size ∧
      d.decision.map (z.variableOn? · p) = (selectedAt z p d.decision).map some ∧
      ∃ v : Variable α, v.IsShare ∧ Grows m m' [v] (pathConstraints d z o p x) := by
  obtain ⟨k, t, added, h⟩ := succeeds_bind.mp h
  obtain ⟨e, u, links, h⟩ := succeeds_bind.mp h
  obtain ⟨rfl, grows⟩ := succeeds_addVariable added
  obtain ⟨selects, rfl, grows'⟩ := succeeds_link links
  have both := grows.trans grows'
  rw [List.append_nil, List.nil_append] at both
  obtain ⟨v, share, both⟩ : ∃ v : Variable α, v.IsShare ∧
      Grows m u [v] ((selectedAt z p d.decision).map (linkTo m.vars.size)) :=
    ⟨_, ⟨rfl, rfl, rfl⟩, both⟩
  by_cases bound : (bindsBelow d o && !d.decision.isEmpty) = true
  · rw [if_pos bound] at h
    obtain ⟨_, w, constrained, h⟩ := succeeds_bind.mp h
    obtain ⟨-, grows''⟩ := succeeds_constrain constrained
    obtain ⟨rfl, rfl⟩ := succeeds_pure.mp h
    refine ⟨rfl, selects, v, share, ?_⟩
    rw [pathConstraints, if_pos bound]
    exact both.trans grows''
  · rw [if_neg bound] at h
    obtain ⟨rfl, rfl⟩ := succeeds_pure.mp h
    refine ⟨rfl, selects, v, share, ?_⟩
    rw [pathConstraints, if_neg bound, List.append_nil]
    exact both

theorem succeeds_filterMapM_addUnlessOmitted {d : Diagram α} {z : DecisionVariables}
    {o : PathVariableOptions α} {ps : List Path} {vars : List (Path × ℕ)} {m m' : Program α}
    (h : Succeeds (ps.filterMapM (addUnlessOmitted d z o)) m vars m') :
    vars.map (·.1) = ps.filter (isAdmitted d o.forbidden) ∧
      (∀ p ∈ ps, ∃ r, omission? d o.forbidden p = .ok r) ∧
      vars.map (·.2) = List.range' m.vars.size vars.length ∧
      (∀ t ∈ vars, d.decision.map (z.variableOn? · t.1) =
        (selectedAt z t.1 d.decision).map some) ∧
      ∃ vs : List (Variable α), vs.length = vars.length ∧ (∀ v ∈ vs, v.IsShare) ∧
        Grows m m' vs (vars.flatMap fun t => pathConstraints d z o t.1 t.2) := by
  induction ps generalizing m vars with
  | nil =>
    obtain ⟨rfl, rfl⟩ := succeeds_filterMapM_nil.mp h
    exact ⟨rfl, by simp, by simp, by simp, [], by simp, by simp, .refl _⟩
  | cons p ps ih =>
    obtain ⟨r, rest, t, hp, hrest, rfl⟩ := succeeds_filterMapM_cons.mp h
    obtain ⟨paths, known, numbered, selects, vs, length, shares, grows⟩ := ih hrest
    obtain ⟨omission, homission, hp⟩ := succeeds_lift_bind.mp hp
    cases omission with
    | some reason =>
      obtain ⟨rfl, rfl⟩ := succeeds_pure.mp hp
      have skipped : isAdmitted d o.forbidden p = false := by
        rw [isAdmitted, homission]
      refine ⟨?_, List.forall_mem_cons.mpr ⟨⟨_, homission⟩, known⟩, numbered, selects, vs, length,
        shares, grows⟩
      rw [List.filter_cons, skipped]
      exact paths
    | none =>
      obtain ⟨x, u, added, hp⟩ := succeeds_bind.mp hp
      obtain ⟨rfl, rfl⟩ := succeeds_pure.mp hp
      obtain ⟨rfl, select, v, share, grows'⟩ := succeeds_addPath added
      have taken : isAdmitted d o.forbidden p = true := by
        rw [isAdmitted, homission]
      refine ⟨?_, List.forall_mem_cons.mpr ⟨⟨_, homission⟩, known⟩, ?_,
        List.forall_mem_cons.mpr ⟨select, selects⟩, v :: vs, ?_,
        List.forall_mem_cons.mpr ⟨share, shares⟩, grows'.trans grows⟩
      · rw [List.filter_cons, taken]
        exact congrArg (p :: ·) paths
      · rw [Option.toList_some, List.singleton_append, List.map_cons, numbered, grows'.size]
        rfl
      · rw [List.length_cons, length]
        rfl

/-- The probability cut, once its mass is known. -/
def cutOf (x : PathVariables α) (mass : LinearExpr α) (isLazy : Bool) : Constraint α :=
  normalized mass x.cutSense x.scale isLazy

/-- Path variables that belong to a diagram and are numbered from a first one on. -/
structure LaidOut (d : Diagram α) (z : DecisionVariables) (o : PathVariableOptions α)
    (x : PathVariables α) (start : ℕ) : Prop where
  scale : x.scale = o.scaleFactor
  isFinite_scale : Scalar.isFinite o.scaleFactor = true
  scale_pos : 0 < o.scaleFactor
  cutSense : ∃ forced, forcesChance d o.fixed.entries = .ok forced ∧
    x.cutSense = if forced then .le else .eq
  paths : ∃ ps : Paths, (Paths.withFixed d.states o.fixed : Except (DiagramError α) _) = .ok ps ∧
    x.vars.map (·.1) = ps.toList.filter (isAdmitted d o.forbidden) ∧
    ∀ p ∈ ps.toList, ∃ r, omission? d o.forbidden p = .ok r
  vars : x.vars.map (·.2) = List.range' start x.vars.length
  selects : ∀ t ∈ x.vars, d.decision.map (z.variableOn? · t.1) =
    (selectedAt z t.1 d.decision).map some

/-- Path variables depend on what is forbidden and forced and on where they start, and on nothing
else but the diagram. -/
theorem LaidOut.vars_eq {d : Diagram α} {z z' : DecisionVariables} {o o' : PathVariableOptions α}
    {x x' : PathVariables α} {start : ℕ} (h : LaidOut d z o x start) (h' : LaidOut d z' o' x' start)
    (fixed : o'.fixed = o.fixed) (forbidden : o'.forbidden = o.forbidden) : x'.vars = x.vars := by
  obtain ⟨ps, run, paths, -⟩ := h.paths
  obtain ⟨ps', run', paths', -⟩ := h'.paths
  rw [fixed, run] at run'
  obtain rfl := Except.ok.inj run'
  have same : x'.vars.map (·.1) = x.vars.map (·.1) := by rw [paths', paths, forbidden]
  have length : x'.vars.length = x.vars.length := by simpa using congrArg List.length same
  have numbered : x'.vars.map (·.2) = x.vars.map (·.2) := by rw [h'.vars, h.vars, length]
  rw [List.zip_of_prod same numbered, ← List.zip_of_prod rfl rfl]

/-- Building path variables appends a variable and its constraints per admitted path, and the
cut if it is asked for. -/
theorem succeeds_build_paths {d : Diagram α} {z : DecisionVariables} {o : PathVariableOptions α}
    {x : PathVariables α} {m m' : Program α} (h : Succeeds (build d z o) m x m') :
    LaidOut d z o x m.vars.size ∧
      ∃ (vs : List (Variable α)) (cuts : List (Constraint α)), vs.length = x.vars.length ∧
        (∀ v ∈ vs, v.IsShare) ∧
        Grows m m' vs ((x.vars.flatMap fun t => pathConstraints d z o t.1 t.2) ++ cuts) ∧
        if o.probabilityCut then ∃ mass, x.mass d = .ok mass ∧ cuts = [x.cutOf mass false]
        else cuts = [] := by
  unfold build at h
  by_cases generated : d.isGenerated = true
  swap
  · rw [Bool.not_eq_true] at generated
    rw [generated] at h
    exact absurd h not_succeeds_throw
  rw [generated] at h
  by_cases scale : (Scalar.isFinite o.scaleFactor && decide (0 < o.scaleFactor)) = true
  swap
  · rw [Bool.not_eq_true] at scale
    rw [scale] at h
    exact absurd h not_succeeds_throw
  rw [scale] at h
  obtain ⟨forced, hforced, h⟩ := succeeds_lift_bind.mp h
  obtain ⟨paths, hpaths, h⟩ := succeeds_lift_bind.mp h
  obtain ⟨vars, t, added, h⟩ := succeeds_bind.mp h
  obtain ⟨admitted, known, numbered, selects, vs, length, shares, grows⟩ :=
    succeeds_filterMapM_addUnlessOmitted added
  rw [Bool.and_eq_true, decide_eq_true_eq] at scale
  have laidOut (cut : Option ℕ) : LaidOut d z o
      ⟨vars, o.scaleFactor, if forced then .le else .eq, cut⟩ m.vars.size :=
    ⟨rfl, scale.1, scale.2, ⟨forced, hforced, rfl⟩, ⟨paths, hpaths, admitted, known⟩, numbered,
      selects⟩
  by_cases asked : o.probabilityCut = true
  · rw [if_pos asked] at h
    obtain ⟨mass, hmass, h⟩ := succeeds_lift_bind.mp h
    obtain ⟨cut, u, constrained, h⟩ := succeeds_bind.mp h
    obtain ⟨rfl, rfl⟩ := succeeds_pure.mp h
    obtain ⟨-, grows'⟩ := succeeds_constrain constrained
    have both := grows.trans grows'
    rw [List.append_nil] at both
    refine ⟨laidOut _, vs, _, length, shares, both, ?_⟩
    rw [if_pos asked]
    exact ⟨mass, hmass, rfl⟩
  · rw [if_neg asked] at h
    obtain ⟨rfl, rfl⟩ := succeeds_pure.mp h
    refine ⟨laidOut _, vs, [], length, shares, ?_, ?_⟩
    · rw [List.append_nil]
      exact grows
    · rw [if_neg asked]

theorem succeeds_addLazyCut {d : Diagram α} {x : PathVariables α} {m m' : Program α} {k : ℕ}
    (h : Succeeds (addLazyCut d x) m k m') :
    ∃ mass, x.mass d = .ok mass ∧ Grows m m' [] [x.cutOf mass true] := by
  obtain ⟨mass, hmass, h⟩ := succeeds_lift_bind.mp h
  exact ⟨mass, hmass, (succeeds_constrain h).2⟩

end PathVariables

end Influence
