import Influence.Proofs.Search

/-!
# Lazy constraints in a search

A search confines variables by lazy constraints and checks them like any others.  It only finds no
one-hot groups in them.  So it does not see which constraints are lazy, apart from the space that it
goes through (`Search.solve_congr`), and a constraint that makes no group may be lazy or not
(`Search.solve_withLazy`).
-/

namespace Influence

variable {α : Type}

/-- The constraint without a mark. -/
def Constraint.eager (c : Constraint α) : Constraint α := { c with isLazy := false }

namespace Program

/-- The program without lazy constraints. -/
def eager (m : Program α) : Program α := { m with constraints := m.constraints.map .eager }

/-- The program with the constraint at a position made lazy. -/
def withLazy (m : Program α) (k : ℕ) : Program α :=
  { m with constraints := m.constraints.modify k fun c => { c with isLazy := true } }

variable {m : Program α} {k : ℕ}

@[simp] theorem size_withLazy : (m.withLazy k).constraints.size = m.constraints.size :=
  Array.size_modify

theorem getElem?_withLazy (i : ℕ) : (m.withLazy k).constraints[i]? =
    m.constraints[i]?.map fun c => if k = i then { c with isLazy := true } else c := by
  rw [withLazy, Array.getElem?_modify]
  split <;> simp

/-- The mark is all that is different. -/
theorem eager_withLazy : (m.withLazy k).eager = m.eager := by
  have constraints : (m.withLazy k).constraints.map Constraint.eager =
      m.constraints.map Constraint.eager := by
    refine Array.ext_getElem? fun i => ?_
    rw [Array.getElem?_map, Array.getElem?_map, getElem?_withLazy, Option.map_map]
    refine congrArg (Option.map · _) (funext fun c => ?_)
    rw [Function.comp_apply]
    split <;> rfl
  exact congrArg (fun cs => { m with constraints := cs }) constraints

end Program

namespace Search

variable [Scalar α] {m m' : Program α} {tolerance : α} {k : ℕ}

/-! ## What settles variables -/

/-- What settles a variable, with constraints that are not lazy. -/
def Settling.eager (s : Settling α) : Settling α :=
  { s with confining := s.confining.map fun e => (e.1.eager, e.2) }

theorem settle_eager (s : Settling α) (values : Array α) :
    s.eager.settle tolerance values = s.settle tolerance values := by
  unfold Settling.settle Settling.eager
  rw [List.foldl_map]
  rfl

theorem settlings_eager (m : Program α) : settlings m.eager = (settlings m).map .eager := by
  have confining (v : ℕ) : confining m.eager v = (confining m v).map fun e => (e.1.eager, e.2) := by
    unfold Search.confining
    have constraints : m.eager.constraints.toList = m.constraints.toList.map .eager :=
      Array.toList_map ..
    rw [constraints, List.filterMap_map, List.map_filterMap]
    refine List.filterMap_congr fun c _ => ?_
    have single : single? m.eager c.eager = single? m c := rfl
    rw [Function.comp_apply, single]
    cases single? m c with
    | none => rfl
    | some t => dsimp only; split <;> rfl
  unfold settlings
  rw [List.map_filterMap]
  refine List.filterMap_congr fun e _ => ?_
  dsimp only
  rw [confining]
  split <;> rfl

theorem settleUntil_eager (ss : List (Settling α)) (values : Array α) :
    settleUntil tolerance (ss.map .eager) values = settleUntil tolerance ss values := by
  induction ss generalizing values with
  | nil => rfl
  | cons s ss ih =>
    rw [List.map_cons, settleUntil, settleUntil, settle_eager]
    simp only [ih]

/-! ## The search -/

/-- What the search needs, with constraints that are not lazy. -/
def Plan.eager (p : Plan α) : Plan α := ⟨p.program.eager, p.space, p.settlings.map .eager⟩

theorem visit_eager (p : Plan α) : p.eager.visit tolerance = p.visit tolerance := by
  funext best values choice
  unfold Plan.visit Plan.eager Program.eager
  simp only [settleUntil_eager, Array.all_map]
  rfl

theorem search_eager (p : Plan α) : p.eager.search tolerance = p.search tolerance := by
  unfold Plan.search
  simp only [visit_eager]
  rfl

/-- Programs that differ in what is lazy have the same answers, if they have the same space. -/
theorem solve_congr (same : m'.eager = m.eager) (spaces : space m' = space m)
    (settings : SearchSettings α) : solve settings m' = solve settings m := by
  have plans : (plan m').eager = (plan m).eager := by
    unfold plan Plan.eager
    rw [← settlings_eager, ← settlings_eager, same, spaces]
  have search (choices : List Path) : (plan m').search settings.tolerance choices =
      (plan m).search settings.tolerance choices := by
    rw [← search_eager (plan m'), plans, search_eager]
  have spaces : (plan m').space = (plan m).space := spaces
  have objective : m'.objective = m.objective := congrArg (·.objective) same
  unfold solve
  simp only [spaces, search, objective]

/-- A constraint that makes no group may be lazy or not. -/
theorem solve_withLazy (h : ∀ c, m.constraints[k]? = some c → groupOf? m c = none)
    (settings : SearchSettings α) : solve settings (m.withLazy k) = solve settings m := by
  have grouping : (m.withLazy k).constraints.toList.map (groupOf? (m.withLazy k)) =
      m.constraints.toList.map (groupOf? m) := by
    refine List.ext_getElem? fun i => ?_
    rw [List.getElem?_map, List.getElem?_map, Array.getElem?_toList, Array.getElem?_toList,
      Program.getElem?_withLazy]
    cases at_i : m.constraints[i]? with
    | none => rfl
    | some c =>
      rw [Option.map_some, Option.map_some, Option.map_some]
      by_cases here : k = i
      · rw [if_pos here, h c (here ▸ at_i)]
        rfl
      · rw [if_neg here]
        rfl
  have groups : groups (m.withLazy k) = groups m := by
    rw [groups_eq_foldl, groups_eq_foldl, grouping]
  refine solve_congr Program.eager_withLazy ?_ settings
  unfold space
  rw [groups]
  rfl

end Search

end Influence
