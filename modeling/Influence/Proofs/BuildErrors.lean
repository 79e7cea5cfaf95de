import Influence.Proofs.Accepted
import Influence.Proofs.FailedCalls

/-!
# Building validated files

Validation decides what can be decided from a file alone: names, references, kinds.  Building
checks all of this again, in the calls that add nodes, order them and attach tables, and on a
validated file these checks pass.  What is left are errors that validation does not look for
(`leftToBuild`): cycles, the shapes and the entries of tables, and what generation asks for
(`build_of_validate`).

Beside these errors there are the limits of words.  A table of a file has as many entries as its
shape counts (`Nested.length_of_flatten`), so its size is only refused where a word cannot count
them, and generation reads past the end of a table only where a value node would need such a one.
-/

namespace Influence

variable {α : Type}

/-- The errors that validation leaves to building. -/
def DiagramError.leftToBuild : DiagramError α → Bool
  | .cyclicGraph .. | .dimensionMismatch .. | .negativeProbability ..
  | .unnormalizedProbability .. | .nonFiniteUtility .. | .missingProbabilities ..
  | .invalidOption .. => true
  | _ => false

/-- How building a validated file with these nodes may fail. -/
inductive BuildFailure (ns : List Node) : DiagramError α → Prop
  | left {e : DiagramError α} (h : e.leftToBuild = true) : BuildFailure ns e
  /-- A table of the file has more entries than a word can count. -/
  | overlong (expected actual : ℕ) (large : Word.count64 ≤ actual) :
      BuildFailure ns (.tensorSize expected actual)
  /-- A value node would need a table of more entries than a word can count. -/
  | oversized {e : DiagramError α} (ends : e.endsProgram = true) {n : Node} (hn : n ∈ ns)
      (value : n.isValue = true) (large : Word.count64 ≤ (shapeOf ns n).prod) : BuildFailure ns e

/-! ## Entries of nested arrays -/

namespace Nested

mutual

/-- There are as many entries as the shape counts. -/
theorem length_of_flattenAt {depth : ℕ} {shape : List ℕ} {entries : List α} :
    ∀ n : Nested α, n.flattenAt depth = .ok (shape, entries) → entries.length = shape.prod
  | .scalar x, h => by
    rw [flattenAt] at h
    cases h
    rfl
  | .array items, h => by
    rw [flattenAt] at h
    rcases except_bind_eq_ok.mp h with ⟨⟨inner, all⟩, run, h⟩
    cases except_pure_eq_ok.mp h
    rw [List.prod_cons]
    exact (length_of_flattenItems items run).1

/-- Neighbours have as many entries each, and their common shape is the one that they must have. -/
theorem length_of_flattenItems {depth element : ℕ} {expected common : Option (List ℕ)}
    {entries : List α} : ∀ items : List (Nested α),
    flattenItems depth element expected items = .ok (common, entries) →
      entries.length = items.length * (common.getD []).prod ∧
        ∀ shape, expected = some shape → common = some shape
  | [], h => by
    rw [flattenItems] at h
    cases h
    exact ⟨(Nat.zero_mul _).symm, fun _ h => h⟩
  | item :: rest, h => by
    rw [flattenItems] at h
    rcases except_bind_eq_ok.mp h with ⟨⟨shape, own⟩, first, h⟩
    dsimp only at h
    split at h
    case isTrue => cases h
    case isFalse same =>
      have same : shape = expected.getD shape := not_not.mp same
      rcases except_bind_eq_ok.mp h with ⟨⟨after, others⟩, run, h⟩
      cases except_pure_eq_ok.mp h
      rcases length_of_flattenItems rest run with ⟨length, kept⟩
      have settled := kept _ rfl
      rw [settled, Option.getD_some, ← same] at length ⊢
      refine ⟨?_, fun wanted given => ?_⟩
      · rw [List.length_append, length_of_flattenAt item first, length, List.length_cons]
        ring
      · rw [same, given, Option.getD_some]

end

theorem length_of_flatten {n : Nested α} {shape : List ℕ} {entries : List α}
    (h : n.flatten = .ok (shape, entries)) : entries.length = shape.prod :=
  length_of_flattenAt n h

end Nested

namespace Diagram

end Diagram

namespace DiagramFile

open Diagram

variable {f : DiagramFile α} {e : DiagramError α}

/-! ## Ordering the nodes -/

section Attaching

variable {ns : List Node} {d : Diagram α}

/-- An assembled diagram with these nodes. -/
structure Awaits (ns : List Node) (d : Diagram α) : Prop where
  orders : d.Orders ns
  assembled : d.phase = .assembled

theorem Awaits.set (h : Awaits ns d) {i : ℕ} {t : Tensor α} :
    Awaits ns { d with tables := d.tables.set i (some t) } :=
  ⟨h.orders.with_tables (List.length_set ..), h.assembled⟩

/-- A node takes a table of its kind. -/
theorem Awaits.exists_attachable (h : Awaits ns d) {n : Node} (hn : n ∈ ns) :
    ∃ i, d.attachable n.name n.kind = .ok i := by
  rcases h.orders.exists_place hn with ⟨i, hi⟩
  exact ⟨i, h.orders.attachable_eq_ok_iff.mpr ⟨h.assembled, n, hi, rfl, rfl⟩⟩

/-- The table of a known node is made from the entries of the file, unless its lists are ragged. -/
theorem tensor_eq_error (h : Awaits ns d) {n : Node} (hn : n ∈ ns) {nested : Nested α}
    (failed : tensor d n.name nested = .error e) : BuildFailure ns e := by
  rcases h.orders.exists_place hn with ⟨i, hi⟩
  have index : d.indexOf n.name = .ok i := by
    rw [indexOf_eq_ok_iff, h.assembled]
    exact ⟨by decide, h.orders.position?_eq hi⟩
  rcases except_bind_eq_error.mp failed with failed | ⟨k, -, failed⟩
  · cases index.symm.trans failed
  · split at failed
    case h_1 shape entries flat =>
      unfold Tensor.ofData at failed
      split at failed
      case isTrue => cases failed
      case isFalse differ =>
        cases failed
        refine .overlong _ _ (Nat.le_of_not_lt fun small => differ ?_)
        rw [List.size_toArray, Nested.length_of_flatten flat] at small ⊢
        exact entryCount_of_lt small
    case h_2 =>
      cases failed
      exact .left rfl

/-- Attaching one table of a file. -/
def attachNested (attach : String → Tensor α → DiagramM α Unit) (b : String × Nested α) :
    DiagramM α Unit := do
  let t ← (tensor (← get) b.1 b.2 : Except (DiagramError α) _)
  attach b.1 t

/-- A way to attach tables to nodes of one kind: it fails as it may, and goes on with the same
nodes. -/
structure Attaches (ns : List Node) (kind : NodeKind)
    (attach : String → Tensor α → DiagramM α Unit) : Prop where
  keeps : ∀ name t d d', Awaits ns d → Succeeds (attach name t) d () d' → Awaits ns d'
  fails : ∀ n ∈ ns, n.kind = kind → ∀ t d e d', Awaits ns d → Fails (attach n.name t) d e d' →
    BuildFailure ns e

/-- One after the other, tables are attached to nodes of their kind, or one of them is at fault. -/
theorem Attaches.forM {kind : NodeKind} {attach : String → Tensor α → DiagramM α Unit}
    (h : Attaches ns kind attach) {bs : List (String × Nested α)}
    (known : ∀ b ∈ bs, ∃ n ∈ ns, n.name = b.1 ∧ n.kind = kind) (start : Awaits ns d) :
    (∀ d', Succeeds (bs.forM (attachNested attach)) d () d' → Awaits ns d') ∧
      ∀ e d', Fails (bs.forM (attachNested attach)) d e d' → BuildFailure ns e := by
  have kept (b : String × Nested α) (d d' : Diagram α) (hd : Awaits ns d)
      (run : Succeeds (attachNested attach b) d () d') : Awaits ns d' := by
    rcases succeeds_liftM_bind.mp (succeeds_get_bind.mp run) with ⟨t, -, run⟩
    exact h.keeps b.1 t d d' hd run
  refine ⟨fun d' => holds_of_succeeds_forM (fun b _ => kept b) start, fun e d' failed => ?_⟩
  rcases exists_of_fails_forM (fun b _ => kept b) start failed with ⟨b, hb, d, hd, failed⟩
  rcases known b hb with ⟨n, hn, named, kind⟩
  rcases fails_liftM_bind.mp (fails_get_bind.mp failed) with ⟨ragged, -⟩ | ⟨t, -, failed⟩
  · exact tensor_eq_error hd hn (named ▸ ragged)
  · exact h.fails n hn kind t d e d' hd (named ▸ failed)

variable [Scalar α]

theorem attaches_probabilities (ns : List Node) :
    Attaches (α := α) ns .chance fun name t => setProbabilities name (.plain t) where
  keeps name t d d' h run := by
    obtain ⟨i, u, -, -, -, -, rfl⟩ := succeeds_setProbabilities_iff.mp run
    exact h.set
  fails n hn kind t d e d' h failed := by
    rcases h.exists_attachable hn with ⟨i, takes⟩
    rcases fails_setProbabilities failed with ⟨-, refused | ⟨_, unsuited⟩ | ⟨_, rfl⟩ | ⟨_, _, rfl⟩⟩
    · rw [kind] at takes
      cases takes.symm.trans refused
    · rcases unpack_eq_error unsuited with ⟨_, -, rfl⟩ | ⟨_, rfl⟩ <;> exact .left rfl
    · exact .left rfl
    · exact .left rfl

theorem attaches_utilities (ns : List Node) :
    Attaches (α := α) ns .value fun name t => setUtility name (.plain t) where
  keeps name t d d' h run := by
    obtain ⟨i, u, -, -, -, rfl⟩ := succeeds_setUtility_iff.mp run
    exact h.set
  fails n hn kind t d e d' h failed := by
    rcases h.exists_attachable hn with ⟨i, takes⟩
    rcases fails_setUtility failed with ⟨-, refused | ⟨_, unsuited⟩ | rfl⟩
    · rw [kind] at takes
      cases takes.symm.trans refused
    · rcases unpack_eq_error unsuited with ⟨_, -, rfl⟩ | ⟨_, rfl⟩ <;> exact .left rfl
    · exact .left rfl

end Attaching

variable [Scalar α]

theorem attachTables_eq (f : DiagramFile α) : f.attachTables = (do
    f.probabilities.forM (attachNested fun name t => setProbabilities name (.plain t))
    f.utilities.forM (attachNested fun name t => setUtility name (.plain t))) := rfl

/-- The tables of a validated file are attached, or one of them is at fault. -/
theorem Accepted.attachTables (h : f.Accepted) {d : Diagram α} (start : Awaits f.nodes d) :
    (∀ d', Succeeds f.attachTables d () d' → Awaits f.nodes d') ∧
      ∀ e d', Fails f.attachTables d e d' → BuildFailure f.nodes e := by
  have probabilities := (attaches_probabilities f.nodes).forM h.probabilities start
  rw [attachTables_eq]
  constructor
  · intro d' run
    rcases succeeds_bind.mp run with ⟨_, d₁, first, second⟩
    exact ((attaches_utilities f.nodes).forM h.utilities (probabilities.1 d₁ first)).1 d' second
  · intro e d' failed
    rcases fails_bind.mp failed with failed | ⟨_, d₁, first, failed⟩
    · exact probabilities.2 e d' failed
    · exact ((attaches_utilities f.nodes).forM h.utilities (probabilities.1 d₁ first)).2 e d' failed

/-! ## Building -/

/-- A value node without a table that observes 32 nodes of four states each, and a sign asked of
its utilities. -/
def crowdedFile : DiagramFile Exact where
  schemaVersion := Influence.schemaVersion
  description := none
  nodes := (names.map fun name => ⟨name, .decision, [], ["a", "b", "c", "d"]⟩) ++
    [⟨"gain", .value, names, []⟩]
  probabilities := []
  utilities := []
  generate := ⟨⟨true, true, true, false⟩, true⟩
  model := .default
where
  names : List String := (List.range 32).map fun k => "d" ++ toString k

-- The default table has `2 ^ 64` entries, which wrap to none, so that building reads past its end.
example : crowdedFile.validate.isOk = true ∧
    (match crowdedFile.build with
      | .ok _ => false
      | .error e => e.endsProgram) = true := by decide +kernel

end DiagramFile

end Influence
