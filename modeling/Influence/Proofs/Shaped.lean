import Influence.Proofs.Attained

/-!
# Assembled diagrams and the shapes of their tables

From assembly on the nodes of an attained diagram are arranged, and every table has the shape that
its node requires and as many entries as the shape counts (`Attained.shaped`).  This holds over any
scalars: shapes and counts have nothing to do with what the entries are.

A diagram that is still being built refuses tables, generation and new utilities, so nothing but
assembly brings a diagram into another phase (`Formed.keeps`).
-/

namespace Influence.Diagram

variable {α : Type}

/-- An assembled diagram whose tables have the shapes that its nodes require. -/
structure Shaped (d : Diagram α) : Prop where
  assembled : d.phase ≠ .building
  arranged : Arranged d
  table : ∀ i t, d.table? i = some t → t.shape = d.expectedShape i ∧ t.Counted

/-- A diagram that is being built has faultless nodes of different names; an assembled one is
shaped. -/
inductive Formed (d : Diagram α) : Prop
  | building (phase : d.phase = .building) (names : (d.nodes.map (·.name)).Nodup)
      (faultless : ∀ n ∈ d.nodes, n.fault? = none)
  | shaped (h : Shaped d)

/-! ## Assembly -/

theorem keeps_formed_addNode (n : Node) : Keeps (Formed (α := α)) (addNode n) := by
  intro d h
  refine (ends_addNode n d).mono fun _ e he => ?_
  rcases he with rfl | ⟨building, faultless, fresh, rfl⟩
  · exact h
  cases h with
  | shaped h => exact absurd building h.assembled
  | building _ names others =>
    refine .building building ?_ (List.forall_mem_append.mpr
      ⟨others, List.forall_mem_singleton.mpr faultless⟩)
    rw [List.map_append, List.nodup_append_comm]
    exact List.nodup_cons.mpr ⟨fresh, names⟩

theorem keeps_formed_generateArcs : Keeps (Formed (α := α)) generateArcs := by
  intro d h
  refine (ends_generateArcs d).mono fun _ e he => ?_
  rcases he with rfl | ⟨building, parents, placed, -, placing, rfl⟩
  · exact h
  cases h with
  | shaped h => exact absurd building h.assembled
  | building _ names faultless =>
    refine .shaped ⟨nofun, arranged_ordered names faultless placing, fun i t table => ?_⟩
    change ((List.replicate d.nodes.length none)[i]?).join = some t at table
    rw [List.getElem?_replicate] at table
    split at table <;> cases table

/-! ## Tables and generation -/

/-- Attaching a table of the right shape. -/
theorem Shaped.set {d : Diagram α} (h : Shaped d) {i : ℕ} {t : Tensor α}
    (fits : t.shape = d.expectedShape i ∧ t.Counted) :
    Shaped { d with tables := d.tables.set i (some t) } where
  assembled := h.assembled
  arranged := { h.arranged with }
  table j u table := by
    rcases table?_set table with ⟨rfl, rfl⟩ | before
    · exact fits
    · exact h.table j u before

/-- What is settled about utilities has nothing to do with the tables. -/
theorem Shaped.restate {d : Diagram α} (h : Shaped d) (pathUtility : Option (PathUtility α))
    (shift : α) (sign : UtilitySign) : Shaped { d with pathUtility, shift, sign } where
  assembled := h.assembled
  arranged := { h.arranged with }
  table := h.table

section Calls

variable [Scalar α]

theorem keeps_shaped_setProbabilities (name : String) {source : TableSource α}
    (made : source.Made) : Keeps Shaped (setProbabilities name source) := by
  intro d h
  unfold setProbabilities
  rw [ends_get_bind, ends_liftM_bind]
  refine ⟨fun i _ => ?_, fun _ _ => h⟩
  rw [ends_liftM_bind]
  refine ⟨fun t unpacked => ?_, fun _ _ => h⟩
  split
  case h_1 => exact h
  case h_2 =>
    split
    case h_1 => exact h
    case h_2 => exact h.set (made.unpack unpacked)

theorem keeps_shaped_setUtility (name : String) {source : TableSource α} (made : source.Made) :
    Keeps Shaped (setUtility name source) := by
  intro d h
  unfold setUtility
  rw [ends_get_bind, ends_liftM_bind]
  refine ⟨fun i _ => ?_, fun _ _ => h⟩
  rw [ends_liftM_bind]
  refine ⟨fun t unpacked => ?_, fun _ _ => h⟩
  split
  case isTrue => exact h.set (made.unpack unpacked)
  case isFalse => exact h

theorem keeps_shaped_fillProbability (o : GenerateOptions) (j : ℕ) :
    Keeps (Shaped (α := α)) (fillProbability o j) := by
  intro d h
  unfold fillProbability
  rw [ends_get_bind]
  split
  case isTrue =>
    cases o.defaultProbability with
    | true => exact h.set ⟨rfl, Tensor.counted_filled _ _⟩
    | false => exact h
  case isFalse => exact h

theorem keeps_shaped_fillUtility (v : ℕ) : Keeps (Shaped (α := α)) (fillUtility v) := by
  intro d h
  unfold fillUtility
  rw [ends_get_bind]
  split
  case isTrue => exact h.set ⟨rfl, Tensor.counted_filled _ _⟩
  case isFalse => exact h

theorem keeps_shaped_settleUtility (o : GenerateOptions) :
    Keeps (Shaped (α := α)) (settleUtility o) := by
  unfold settleUtility
  split
  case isTrue =>
    intro d h
    rw [ends_get_bind]
    exact keeps_bind (keeps_forM fun v _ => keeps_shaped_fillUtility v)
      (fun _ e he => ends_modify.mpr (he.restate _ _ _)) d h
  case isFalse => exact fun d h => h.restate _ _ _

theorem keeps_shaped_settleSign (o : GenerateOptions) :
    Keeps (Shaped (α := α)) (settleSign o) := by
  intro d h
  refine (ends_settleSign o d).mono fun _ e he => ?_
  rcases he with ⟨shift, sign, rfl, -⟩
  exact h.restate _ _ _

theorem keeps_shaped_generate (o : GenerateOptions) : Keeps (Shaped (α := α)) (generate o) := by
  intro d h
  unfold generate
  rw [ends_get_bind]
  split
  case h_1 => exact h
  case h_2 => exact h
  case h_3 =>
    split
    case h_1 => exact h
    case h_2 =>
      refine keeps_bind (keeps_forM fun j _ => keeps_shaped_fillProbability o j) (fun _ =>
        keeps_bind (keeps_shaped_settleUtility o) fun _ =>
          keeps_bind (keeps_shaped_settleSign o) fun _ => ?_) d h
      exact fun e he => ⟨nofun, { he.arranged with }, he.table⟩

theorem keeps_shaped_setPathUtility (u : PathUtility α) : Keeps Shaped (setPathUtility u) := by
  intro d h
  unfold setPathUtility
  rw [ends_get_bind]
  split
  case isTrue => exact h
  case isFalse => exact h.restate _ _ _

end Calls

/-! ## Every attained diagram -/

/-- A diagram that is still being built is left as it is by what keeps shapes, if that refuses such
a diagram. -/
theorem Formed.keeps {x : DiagramM α Unit} (shaped : Keeps Shaped x)
    (refuses : ∀ d : Diagram α, d.phase = .building → Ends x d fun _ e => e = d) :
    Keeps Formed x := by
  intro d h
  cases h with
  | building phase names faultless =>
    refine (refuses d phase).mono fun _ e same => ?_
    exact same ▸ .building phase names faultless
  | shaped h => exact (shaped d h).mono fun _ e he => .shaped he

variable [Scalar α]

theorem Attained.formed {d : Diagram α} (h : Attained d) : Formed d := by
  induction h with
  | empty strict => exact .building rfl List.nodup_nil nofun
  | addNode _ n ih => exact keeps_formed_addNode n _ ih
  | generateArcs _ ih => exact keeps_formed_generateArcs _ ih
  | setProbabilities _ name made ih =>
    refine Formed.keeps (keeps_shaped_setProbabilities name made) (fun d building => ?_) _ ih
    unfold Diagram.setProbabilities attachable
    rw [ends_get_bind, building]
    rfl
  | setUtility _ name made ih =>
    refine Formed.keeps (keeps_shaped_setUtility name made) (fun d building => ?_) _ ih
    unfold Diagram.setUtility attachable
    rw [ends_get_bind, building]
    rfl
  | generate _ o ih =>
    refine Formed.keeps (keeps_shaped_generate o) (fun d building => ?_) _ ih
    unfold Diagram.generate
    rw [ends_get_bind, building]
    rfl
  | setPathUtility _ u ih =>
    refine Formed.keeps (keeps_shaped_setPathUtility u) (fun d building => ?_) _ ih
    unfold Diagram.setPathUtility
    rw [ends_get_bind, building]
    rfl

theorem Attained.shaped {d : Diagram α} (h : Attained d) (assembled : d.phase ≠ .building) :
    Shaped d := by
  cases h.formed with
  | building phase => exact absurd phase assembled
  | shaped h => exact h

theorem Attained.shaped_of_isGenerated {d : Diagram α} (h : Attained d)
    (generated : d.isGenerated = true) : Shaped d :=
  h.shaped fun building => by
    rw [isGenerated, building] at generated
    cases generated

end Influence.Diagram
