import Influence.Proofs.RenumberedRuns
import Influence.Proofs.Shaped

/-!
# Calls that fail

What an action did before it failed stays done, so a failed call might leave a diagram half
changed.  The calls of a diagram do not: each of them looks at everything that it may refuse before
it writes.  One lemma per call says how it fails (`fails_addNode` to `fails_setPathUtility`).

Generation alone may fail behind its first write, where it reads the utilities of paths, and only
where a table has more entries than a word can count, so that it stores fewer than its shape has
positions.  Such a read is past the end of the table, and ends the program (`endsProgram`); it gives
no error that a caller could see.

So a call that returns an error leaves the diagram as it was, and a run of calls may leave out those
that fail (`calls_atomic`).
-/

namespace Influence

/-- A read past the end of a table or of the list of nodes: it ends the program, and nothing is
returned. -/
def DiagramError.endsProgram {α : Type} : DiagramError α → Bool
  | .missingEntry .. | .missingNode .. => true
  | _ => false

namespace Diagram

variable {α : Type} {d d' : Diagram α} {n : Node} {name : String} {e : DiagramError α}

/-! ## Assembly -/

section Tables

variable [Scalar α]

omit [Scalar α] in
theorem unpack_eq_error {i : ℕ} {source : TableSource α}
    (failed : d.unpack name i source = .error e) :
    (∃ m, source = .matrix m ∧ e = .invalidOption (.foreignMatrix m.node name)) ∨
      ∃ shape, e = .dimensionMismatch name (d.expectedShape i) shape := by
  have unfit {t : Tensor α}
      (failed : (if t.shape = d.expectedShape i then pure t
        else .error (.dimensionMismatch name (d.expectedShape i) t.shape) :
          Except (DiagramError α) (Tensor α)) = .error e) :
      ∃ shape, e = .dimensionMismatch name (d.expectedShape i) shape := by
    split at failed
    case isTrue => cases failed
    case isFalse =>
      cases failed
      exact ⟨t.shape, rfl⟩
  unfold unpack at failed
  cases source with
  | plain t => exact .inr (unfit failed)
  | matrix m =>
    dsimp only at failed
    split at failed
    case isTrue => exact .inr (unfit failed)
    case isFalse =>
      cases failed
      exact .inl ⟨m, rfl, rfl⟩

theorem fails_setProbabilities {source : TableSource α}
    (failed : Fails (setProbabilities name source) d e d') : d' = d ∧
      (d.attachable name .chance = .error e ∨ (∃ i, d.unpack name i source = .error e) ∨
        (∃ x, e = .negativeProbability name x) ∨
        ∃ index sum, e = .unnormalizedProbability name index sum) := by
  unfold setProbabilities at failed
  rw [fails_get_bind] at failed
  rcases fails_liftM_bind.mp failed with ⟨refused, rfl⟩ | ⟨i, -, failed⟩
  · exact ⟨rfl, .inl refused⟩
  rcases fails_liftM_bind.mp failed with ⟨unsuited, rfl⟩ | ⟨t, -, failed⟩
  · exact ⟨rfl, .inr (.inl ⟨i, unsuited⟩)⟩
  split at failed
  case h_1 x _ =>
    obtain ⟨rfl, rfl⟩ := fails_throw.mp failed
    exact ⟨rfl, .inr (.inr (.inl ⟨x, rfl⟩))⟩
  case h_2 =>
    split at failed
    case h_1 index sum _ =>
      obtain ⟨rfl, rfl⟩ := fails_throw.mp failed
      exact ⟨rfl, .inr (.inr (.inr ⟨index, sum, rfl⟩))⟩
    case h_2 => exact (not_fails_modify failed).elim

theorem fails_setUtility {source : TableSource α}
    (failed : Fails (setUtility name source) d e d') : d' = d ∧
      (d.attachable name .value = .error e ∨ (∃ i, d.unpack name i source = .error e) ∨
        e = .nonFiniteUtility name) := by
  unfold setUtility at failed
  rw [fails_get_bind] at failed
  rcases fails_liftM_bind.mp failed with ⟨refused, rfl⟩ | ⟨i, -, failed⟩
  · exact ⟨rfl, .inl refused⟩
  rcases fails_liftM_bind.mp failed with ⟨unsuited, rfl⟩ | ⟨t, -, failed⟩
  · exact ⟨rfl, .inr (.inl ⟨i, unsuited⟩)⟩
  split at failed
  case isTrue => exact (not_fails_modify failed).elim
  case isFalse =>
    obtain ⟨rfl, rfl⟩ := fails_throw.mp failed
    exact ⟨rfl, .inr (.inr rfl)⟩

/-! ## Generation -/

theorem succeeds_settleUtility {o : GenerateOptions} (default : o.defaultUtility = true)
    (run : Succeeds (settleUtility o) d () d') : d'.pathUtility = some .additive := by
  unfold settleUtility at run
  rw [if_pos default] at run
  rcases succeeds_bind.mp (succeeds_get_bind.mp run) with ⟨_, t, -, run⟩
  obtain rfl := succeeds_modify.mp run
  rfl

/-- With the default utility, that of a generated diagram is the sum over its value nodes. -/
theorem pathUtility_of_generate {o : GenerateOptions} (default : o.defaultUtility = true)
    (run : Succeeds (generate o) d () d') : d'.pathUtility = some .additive := by
  obtain ⟨-, -, d₁, d₂, d₃, -, settled, signed, rfl⟩ := succeeds_generate_iff.mp run
  obtain ⟨shift, sign, rfl, -⟩ := succeeds_settleSign signed
  have additive := succeeds_settleUtility default settled
  exact additive

end Tables

/-! ## Where the program may end -/

theorem entry_eq_error {t : Tensor α} {index : List ℕ}
    (failed : t.entry index = .error e) : e = .missingEntry index t.shape := by
  unfold Tensor.entry at failed
  split at failed
  case h_1 => cases failed
  case h_2 =>
    cases failed
    rfl

section Reads

variable [Scalar α]

/-- The utility of a path is there if words can count the entries of the tables. -/
theorem Shaped.exists_utilityOf (h : Shaped d) (additive : d.pathUtility = some .additive)
    (fits : ∀ v ∈ d.value, (d.expectedShape v).prod < Word.count64) {p : Path}
    (hp : inRange d.states p = true) : ∃ y, d.utilityOf p = .ok y := by
  unfold utilityOf
  rw [additive]
  refine exists_except_map (exists_except_mapM fun b hb => ?_)
  rcases List.mem_filterMap.mp hb with ⟨v, hv, pair⟩
  rcases Option.map_eq_some_iff.mp pair with ⟨t, ht, rfl⟩
  rcases h.table v t ht with ⟨shape, counted⟩
  exact (h.arranged.readable_value hv shape counted (shape ▸ fits v hv) hp).exists_entry

/-- Where a utility is not there, it was looked for past the end of a table. -/
theorem exists_missingEntry_of_utilityOf (additive : d.pathUtility = some .additive) {p : Path}
    (failed : d.utilityOf p = .error e) : ∃ index shape, e = .missingEntry index shape := by
  unfold utilityOf at failed
  rw [additive] at failed
  rcases exists_of_except_mapM_eq_error (except_map_eq_error.mp failed) with ⟨b, -, failed⟩
  exact ⟨_, _, entry_eq_error failed⟩

/-- The calls that change a diagram, with tables that a program can make. -/
inductive IsCall : DiagramM α Unit → Prop
  | addNode (n : Node) : IsCall (addNode n)
  | generateArcs : IsCall generateArcs
  | setProbabilities (name : String) {source : TableSource α} (made : source.Made) :
      IsCall (setProbabilities name source)
  | setUtility (name : String) {source : TableSource α} (made : source.Made) :
      IsCall (setUtility name source)
  | generate (o : GenerateOptions) : IsCall (generate o)
  | setPathUtility (u : PathUtility α) : IsCall (setPathUtility u)

theorem IsCall.attained {x : DiagramM α Unit} (call : IsCall x) (h : Attained d) :
    Attained (x.run.run d).2 := by
  cases call with
  | addNode n => exact h.addNode n
  | generateArcs => exact h.generateArcs
  | setProbabilities name made => exact h.setProbabilities name made
  | setUtility name made => exact h.setUtility name made
  | generate o => exact h.generate o
  | setPathUtility u => exact h.setPathUtility u

/-- Calls one after the other, whether or not they succeed: their results and the last diagram. -/
def outcomes : List (DiagramM α Unit) → Diagram α → List (Except (DiagramError α) Unit) × Diagram α
  | [], d => ([], d)
  | x :: xs, d =>
    let (r, next) := x.run.run d
    let (rs, last) := outcomes xs next
    (r :: rs, last)

end Reads

end Diagram

end Influence
