import Influence.Proofs.RenumberedRuns

/-!
# The order in which nodes are declared

A definition file may list its nodes in any order.  Where the nodes are declared differently, the
diagram numbers them differently, but it can be built if and only if the other one can, and an
assignment of states to names has the same probability and the same utility, with the same shift, in
both (`declaration_order`).
-/

namespace Influence

open Extended Diagram

namespace Diagram

/-- Assembled diagrams without tables are alike. -/
theorem Bare.alike {α : Type} [Scalar α] {d e : Diagram α} {strict : Bool} {ns : List Node}
    (left : d.Orders ns) (right : e.Orders ns) (bare : d.Bare strict) (bare' : e.Bare strict) :
    Alike ns d e where
  left := left
  right := right
  phase := bare'.phase.trans bare.phase.symm
  strict := bare'.strict.trans bare.strict.symm
  tables := left.tableNamed_ext right fun i j _ _ _ => (bare'.tables j).trans (bare.tables i).symm
  pathUtility := bare'.pathUtility.trans bare.pathUtility.symm
  shift := bare'.shift.trans bare.shift.symm
  sign := bare'.sign.trans bare.sign.symm

namespace Alike

variable {d e : Diagram Exact} {ns : List Node} (h : Alike ns d e) {a : String → ℕ}

include h

theorem checkPath (checked : d.checkPath (d.pathOf a) = .ok ()) :
    e.checkPath (e.pathOf a) = .ok () := by
  rcases checkPath_eq_ok_iff.mp checked with ⟨generated, inside⟩
  exact checkPath_eq_ok_iff.mpr ⟨h.phase.trans generated,
    h.right.inRange_pathOf.mpr (h.left.inRange_pathOf.mp inside)⟩

variable (stored : Stored d)

include stored

theorem pathProbability {x : Exact} (hx : d.pathProbability (d.pathOf a) = .ok x) :
    e.pathProbability (e.pathOf a) = .ok x := by
  rcases except_bind_eq_ok.mp hx with ⟨_, checked, value⟩
  exact except_bind_eq_ok.mpr ⟨(), h.checkPath checked, h.probabilityOf stored value⟩

theorem rawPathUtility {o : GenerateOptions} (settled : d.pathUtility = settledUtility o)
    {u : Exact} (hu : d.rawPathUtility (d.pathOf a) = .ok u) :
    e.rawPathUtility (e.pathOf a) = .ok u := by
  rcases except_bind_eq_ok.mp hu with ⟨_, checked, value⟩
  refine except_bind_eq_ok.mpr ⟨(), h.checkPath checked, ?_⟩
  unfold settledUtility at settled
  split at settled
  case isTrue => exact h.utilityOf stored settled value
  case isFalse =>
    unfold Diagram.utilityOf at value
    rw [settled] at value
    cases value

end Alike

end Diagram

variable {f : DiagramFile Exact} {ns : List Node}

/-- What can be built can be built from nodes in any other order. -/
theorem DiagramFile.exists_build (perm : ns.Perm f.nodes) {d : Diagram Exact}
    (built : f.build = .ok d) :
    (∃ e, build { f with nodes := ns } = .ok e ∧ Alike f.nodes d e) ∧
      d.pathUtility = settledUtility f.generate.options ∧ d.phase = .generated := by
  rcases except_bind_eq_ok.mp built with ⟨d₂, assembled, generated⟩
  rcases except_bind_eq_ok.mp assembled with ⟨d₁, arranged, attached⟩
  rcases orders_of_arrange arranged with ⟨orders, bare⟩
  obtain ⟨e₁, arranged'⟩ : ∃ e₁, arrange { f with nodes := ns } = .ok e₁ :=
    exists_arrange_iff.mpr ((exists_arrange_iff.mp ⟨d₁, arranged⟩).perm perm)
  rcases orders_of_arrange arranged' with ⟨orders', bare'⟩
  have orders' : e₁.Orders f.nodes := { orders' with nodes := orders'.nodes.trans perm }
  rcases respects_attachTables f f.nodes d₁ e₁ d₂ (bare.alike orders orders' bare')
    (after_eq_ok_iff.mp attached) with ⟨e₂, attached', alike⟩
  have stored := (reachable_of_build built).valid.stored
  have run := after_eq_ok_iff.mp generated
  rcases alike.generate run stored with ⟨⟨e, generated', alike⟩, settled⟩
  refine ⟨⟨e, except_bind_eq_ok.mpr ⟨e₂, except_bind_eq_ok.mpr ⟨e₁, arranged', ?_⟩, ?_⟩, alike⟩,
    settled, ?_⟩
  · exact after_eq_ok_iff.mpr attached'
  · exact after_eq_ok_iff.mpr generated'
  · obtain ⟨-, -, _, _, d₃, -, -, -, rfl⟩ := succeeds_generate_iff.mp run
    rfl

private theorem toOption_eq {ε β : Type} {x y : Except ε β} (h : ∀ b, x = .ok b → y = .ok b)
    (h' : ∀ b, y = .ok b → x = .ok b) : y.toOption = x.toOption := by
  cases x with
  | ok b => rw [h b rfl]
  | error e =>
    cases y with
    | ok b => cases h' b rfl
    | error e' => rfl

/-- Nodes may be declared in any order.  The file can be built in either order or in neither, and
then the two diagrams, whose nodes may have different numbers, shift utilities by the same amount,
and give every assignment of states to names the same probability and the same utility, or none.
They give them where each node is given one of its states, as long as the entries of tables can be
counted by words. -/
theorem declaration_order (perm : ns.Perm f.nodes) :
    ((∃ e, DiagramFile.build { f with nodes := ns } = .ok e) ↔ ∃ d, f.build = .ok d) ∧
    ∀ d e, f.build = .ok d → DiagramFile.build { f with nodes := ns } = .ok e →
      e.shift = d.shift ∧ ∀ a : String → ℕ,
        (e.pathProbability (e.pathOf a)).toOption = (d.pathProbability (d.pathOf a)).toOption ∧
        (e.rawPathUtility (e.pathOf a)).toOption = (d.rawPathUtility (d.pathOf a)).toOption ∧
        (Assigns f.nodes a → (∀ i t, d.table? i = some t → t.shape.prod < Word.count64) →
          (∃ x, d.pathProbability (d.pathOf a) = .ok x) ∧
          (f.generate.options.defaultUtility = true →
            ∃ u, d.rawPathUtility (d.pathOf a) = .ok u)) := by
  constructor
  · constructor
    · rintro ⟨e, built⟩
      rcases (DiagramFile.exists_build (f := { f with nodes := ns }) perm.symm built).1
        with ⟨d, built', -⟩
      exact ⟨d, built'⟩
    · rintro ⟨d, built⟩
      rcases (DiagramFile.exists_build perm built).1 with ⟨e, built', -⟩
      exact ⟨e, built'⟩
  · intro d e built built'
    rcases DiagramFile.exists_build perm built with ⟨⟨e', built'', alike⟩, settled, generated⟩
    obtain rfl : e' = e := Except.ok.inj (built''.symm.trans built')
    have stored := (DiagramFile.reachable_of_build built).valid.stored
    have stored' := (DiagramFile.reachable_of_build built').valid.stored
    refine ⟨alike.shift, fun a => ⟨?_, ?_, fun assigns fits => ?_⟩⟩
    · exact toOption_eq (fun x => alike.pathProbability stored)
        fun x => alike.symm.pathProbability stored'
    · exact toOption_eq (fun u => alike.rawPathUtility stored settled)
        fun u => alike.symm.rawPathUtility stored' (alike.pathUtility.trans settled)
    have attained := DiagramFile.attained_of_build built
    rcases attained.evaluates Scalar.hasShares_exact fits generated
      (alike.left.inRange_pathOf.mpr assigns) with ⟨-, probability, utility⟩
    refine ⟨probability, fun default => utility .additive ?_⟩
    rw [settled, settledUtility, if_pos default]

/-- The wager with its nodes the other way round. -/
def turnedWager : DiagramFile Exact :=
  { wagerFile true .default with nodes := (wagerFile true .default).nodes.reverse }

/-- The state of the bet comes first, and in the other diagram second. -/
theorem declaration_order_wager :
    (wagerFile true .default).nodes.reverse.Perm (wagerFile true .default).nodes ∧
    ∃ e, turnedWager.build = .ok e ∧ e.shift = (wager true).shift ∧
      (wager true).pathOf (fun name => if name = "bet" then 1 else 0) = [1, 0] ∧
      e.pathOf (fun name => if name = "bet" then 1 else 0) = [0, 1] ∧
      (e.rawPathUtility [0, 1]).toOption = some (finite (-1)) := by
  have built : (wagerFile true .default).build = .ok (wager true) :=
    except_eq_ok_of_isOk _ (by decide +kernel)
  have perm := List.reverse_perm (wagerFile true .default).nodes
  rcases exists_eq_ok_of_any (x := turnedWager.build)
    (fun e => e.pathOf (fun name => if name = "bet" then 1 else 0) == [0, 1]) (by decide +kernel)
    with ⟨e, turned, path⟩
  rcases (declaration_order perm).2 (wager true) e built turned with ⟨shift, values⟩
  rcases values fun name => if name = "bet" then 1 else 0 with ⟨-, utility, -⟩
  have own : (wager true).pathOf (fun name => if name = "bet" then 1 else 0) = [1, 0] := by
    decide +kernel
  rw [beq_iff_eq.mp path, own] at utility
  exact ⟨perm, e, turned, shift, own, beq_iff_eq.mp path, utility.trans (by decide +kernel)⟩

end Influence
