import Influence.Proofs.Success
import Influence.Study.Validation

/-!
# What validation accepts

One lemma per check says what a file satisfies that passes it (`checkNames_eq_ok` to
`checkFixed_eq_ok`), and `Accepted` puts them together for a file that passes all of them
(`accepted_of_validate`): its nodes are faultless and have different names, information sets name
nodes with states, tables belong to nodes of their kind, and every reference to a state means one
(`MeansState`).
-/

namespace Influence

variable {α : Type}

/-- The reference means this state of the named node, which has states. -/
def MeansState (ns : List Node) (name : String) (ref : StateRef) (s : ℕ) : Prop :=
  ∃ n ∈ ns, n.name = name ∧ n.isValue = false ∧ ref.resolve? n.states = some s

namespace DiagramFile

/-- What a validated file satisfies. -/
structure Accepted (f : DiagramFile α) : Prop where
  names : (f.nodes.map (·.name)).Nodup
  faultless : ∀ n ∈ f.nodes, n.fault? = none
  parents : ∀ n ∈ f.nodes, ∀ q ∈ n.informationSet, ∃ m ∈ f.nodes, m.name = q ∧ m.isValue = false
  probabilities : ∀ b ∈ f.probabilities, ∃ n ∈ f.nodes, n.name = b.1 ∧ n.kind = .chance
  utilities : ∀ b ∈ f.utilities, ∃ n ∈ f.nodes, n.name = b.1 ∧ n.kind = .value
  /-- The nodes of a forbidden section may be none, and a node may be among them twice. -/
  forbidden : ∀ s ∈ f.model.forbidden,
    (∀ name ∈ s.nodes, ∃ n ∈ f.nodes, n.name = name ∧ n.isValue = false) ∧
      ∀ refs ∈ s.states,
        List.Forall₂ (fun name ref => ∃ k, MeansState f.nodes name ref k) s.nodes refs
  fixed : ∀ b ∈ f.model.fixed, ∃ k, MeansState f.nodes b.1 b.2 k

/-- Lists that are related through a third one. -/
theorem forall₂_through {β γ δ : Type} {R : β → γ → Prop} {S : γ → δ → Prop} {T : β → δ → Prop}
    (step : ∀ b c d, R b c → S c d → T b d) {bs : List β} {cs : List γ} {ds : List δ}
    (left : List.Forall₂ R bs cs) (right : List.Forall₂ S cs ds) : List.Forall₂ T bs ds := by
  induction left generalizing ds with
  | nil =>
    cases right
    exact .nil
  | cons first _ ih =>
    cases right with
    | cons second rest => exact .cons (step _ _ _ first second) (ih rest)

/-! ## Checks -/

variable {f : DiagramFile α}

theorem node?_eq_some {name : String} {n : Node} (found : f.node? name = some n) :
    n ∈ f.nodes ∧ n.name = name :=
  ⟨List.mem_of_find?_eq_some found, by simpa using List.find?_some found⟩

theorem checkNames_eq_ok {earlier : List String} {ns : List Node}
    (h : checkNames earlier ns = (.ok () : Except (FileError α) Unit)) :
    (∀ n ∈ ns, n.name ≠ "" ∧ n.name ∉ earlier) ∧ (ns.map (·.name)).Nodup := by
  -- The names that a node must differ from grow along the list.
  induction ns generalizing earlier with
  | nil => exact ⟨nofun, List.nodup_nil⟩
  | cons n ns ih =>
    unfold checkNames at h
    split at h
    case isTrue => cases h
    case isFalse named =>
      split at h
      case isTrue => cases h
      case isFalse fresh =>
        rcases ih h with ⟨others, distinct⟩
        refine ⟨List.forall_mem_cons.mpr ⟨⟨named, by simpa using fresh⟩, fun m hm => ?_⟩, ?_⟩
        · exact ⟨(others m hm).1, fun earlier => (others m hm).2 (List.mem_cons_of_mem _ earlier)⟩
        · refine List.nodup_cons.mpr ⟨fun again => ?_, distinct⟩
          rcases List.mem_map.mp again with ⟨m, hm, same⟩
          exact (others m hm).2 (same ▸ List.mem_cons_self)

theorem checkStates_eq_ok {n : Node} (h : checkStates n = (.ok () : Except (FileError α) Unit)) :
    (n.isValue = true → n.states = []) ∧ (n.isValue = false → n.states ≠ []) ∧ n.states.Nodup := by
  unfold checkStates at h
  dsimp only at h
  split at h
  case isTrue value =>
    split at h
    case isTrue none =>
      refine ⟨fun _ => none, fun inner => ?_, none ▸ List.nodup_nil⟩
      rw [value] at inner
      cases inner
    case isFalse => cases h
  case isFalse inner =>
    split at h
    case isTrue => cases h
    case isFalse some =>
      split at h
      case isTrue distinct => exact ⟨fun value => absurd value inner, fun _ => some, distinct⟩
      case isFalse => cases h

theorem checkParents_eq_ok {n : Node} {earlier parents : List String}
    (h : f.checkParents n earlier parents = .ok ()) :
    (∀ q ∈ parents, (∃ m ∈ f.nodes, m.name = q ∧ m.isValue = false) ∧ q ≠ n.name ∧ q ∉ earlier) ∧
      parents.Nodup := by
  induction parents generalizing earlier with
  | nil => exact ⟨nofun, List.nodup_nil⟩
  | cons q parents ih =>
    unfold checkParents at h
    split at h
    case h_1 => cases h
    case h_2 m found =>
      split at h
      case isTrue => cases h
      case isFalse inner =>
        split at h
        case isTrue => cases h
        case isFalse fresh =>
          rw [not_or] at fresh
          rcases ih h with ⟨others, distinct⟩
          rcases node?_eq_some found with ⟨hm, named⟩
          refine ⟨List.forall_mem_cons.mpr
            ⟨⟨⟨m, hm, named, by simpa using inner⟩, fresh⟩, fun r hr => ?_⟩, ?_⟩
          · rcases others r hr with ⟨known, other, later⟩
            exact ⟨known, other, fun before => later (List.mem_cons_of_mem _ before)⟩
          · exact List.nodup_cons.mpr
              ⟨fun again => (others q again).2.2 List.mem_cons_self, distinct⟩

theorem checkTable_eq_ok {place : Place} {kind : NodeKind} {name : String}
    (h : f.checkTable place kind name = .ok ()) : ∃ n ∈ f.nodes, n.name = name ∧ n.kind = kind := by
  unfold checkTable at h
  split at h
  case h_1 => cases h
  case h_2 n found =>
    split at h
    case isTrue kind =>
      rcases node?_eq_some found with ⟨hn, named⟩
      exact ⟨n, hn, named, kind⟩
    case isFalse => cases h

theorem stateNode_eq_ok {place : Place} {name : String} {n : Node}
    (h : f.stateNode place name = .ok n) : n ∈ f.nodes ∧ n.name = name ∧ n.isValue = false := by
  unfold stateNode at h
  split at h
  case h_1 m found =>
    split at h
    case isTrue => cases h
    case isFalse inner =>
      cases h
      rcases node?_eq_some found with ⟨hn, named⟩
      exact ⟨hn, named, by simpa using inner⟩
  case h_2 => cases h

theorem checkState_eq_ok {place : Place} {n : Node} {ref : StateRef}
    (h : checkState place n ref = (.ok () : Except (FileError α) Unit)) :
    ∃ s, ref.resolve? n.states = some s := by
  unfold checkState at h
  split at h
  case isTrue some => exact Option.isSome_iff_exists.mp some
  case isFalse => cases h

theorem checkForbidden_eq_ok {s : ForbiddenSection} {i : ℕ} (h : f.checkForbidden s i = .ok ()) :
    (∀ name ∈ s.nodes, ∃ n ∈ f.nodes, n.name = name ∧ n.isValue = false) ∧
      ∀ refs ∈ s.states,
        List.Forall₂ (fun name ref => ∃ k, MeansState f.nodes name ref k) s.nodes refs := by
  rcases except_bind_eq_ok.mp h with ⟨nodes, found, checked⟩
  constructor
  · intro name hname
    rcases except_eq_ok_of_mem_mapM found hname with ⟨n, -, known⟩
    exact ⟨n, stateNode_eq_ok known⟩
  · intro refs hrefs
    have passed := except_forM_eq_ok checked refs hrefs
    unfold checkCombination at passed
    split at passed
    case isTrue => cases passed
    case isFalse length =>
      have length : refs.length = nodes.length := not_not.mp length
      have states : List.Forall₂ (fun n ref => ∃ k, ref.resolve? n.states = some k) nodes refs := by
        refine List.forall₂_iff_zip.mpr ⟨length.symm, fun {n ref} pair => ?_⟩
        exact checkState_eq_ok (except_forM_eq_ok passed (n, ref) pair)
      -- Names lead to nodes and nodes to references; the nodes in between drop out.
      refine forall₂_through (fun name n ref known meant => ?_) (except_mapM_eq_ok_iff.mp found)
        states
      rcases stateNode_eq_ok known with ⟨hn, named, inner⟩
      rcases meant with ⟨k, meant⟩
      exact ⟨k, n, hn, named, inner, meant⟩

theorem checkFixed_eq_ok {name : String} {ref : StateRef} (h : f.checkFixed name ref = .ok ()) :
    ∃ k, MeansState f.nodes name ref k := by
  rcases except_bind_eq_ok.mp h with ⟨n, found, checked⟩
  rcases stateNode_eq_ok found with ⟨hn, named, inner⟩
  rcases checkState_eq_ok checked with ⟨k, meant⟩
  exact ⟨k, n, hn, named, inner, meant⟩

/-! ## The whole file -/

/-- A node that passes its checks has no fault by itself. -/
theorem fault?_eq_none_of_checks {n : Node} (named : n.name ≠ "")
    (states : checkStates n = (.ok () : Except (FileError α) Unit))
    (parents : f.checkParents n [] n.informationSet = .ok ()) : n.fault? = none := by
  rcases checkStates_eq_ok states with ⟨value, inner, distinct⟩
  rcases checkParents_eq_ok parents with ⟨others, once⟩
  unfold Node.fault?
  rw [if_neg named, if_neg (fun h => h.2 (value h.1)),
    if_neg (fun h => inner (by simpa using h.1) h.2), if_neg (not_not.mpr distinct),
    if_neg (not_not.mpr once), if_neg fun own => (others n.name own).2.1 rfl]

theorem accepted_of_validate [Scalar α] (h : f.validate = .ok ()) : f.Accepted := by
  unfold validate at h
  rcases except_bind_eq_ok.mp h with ⟨_, -, h⟩
  dsimp only at h
  split at h
  case isTrue => cases h
  rcases except_bind_eq_ok.mp h with ⟨_, names, h⟩
  rcases except_bind_eq_ok.mp h with ⟨_, nodes, h⟩
  rcases except_bind_eq_ok.mp h with ⟨_, probabilities, h⟩
  rcases except_bind_eq_ok.mp h with ⟨_, utilities, h⟩
  split at h
  case isTrue => cases h
  split at h
  case isTrue => cases h
  rcases except_bind_eq_ok.mp h with ⟨_, forbidden, h⟩
  rcases except_bind_eq_ok.mp h with ⟨_, fixed, -⟩
  rcases checkNames_eq_ok names with ⟨named, distinct⟩
  have checked (n : Node) (hn : n ∈ f.nodes) :
      checkStates n = (.ok () : Except (FileError α) Unit) ∧
      f.checkParents n [] n.informationSet = .ok () := by
    rcases except_bind_eq_ok.mp (except_forM_eq_ok nodes n hn) with ⟨_, states, parents⟩
    exact ⟨states, parents⟩
  refine ⟨distinct, fun n hn => ?_, fun n hn q hq => ?_, fun b hb => ?_, fun b hb => ?_,
    fun s hs => ?_, fun b hb => ?_⟩
  · exact fault?_eq_none_of_checks (named n hn).1 (checked n hn).1 (checked n hn).2
  · exact ((checkParents_eq_ok (checked n hn).2).1 q hq).1
  · exact checkTable_eq_ok (except_forM_eq_ok probabilities b hb)
  · exact checkTable_eq_ok (except_forM_eq_ok utilities b hb)
  · rcases List.mem_iff_getElem?.mp hs with ⟨i, hi⟩
    exact checkForbidden_eq_ok
      (except_forM_eq_ok forbidden (s, i) (List.mem_zipIdx_iff_getElem?.mpr hi))
  · exact checkFixed_eq_ok (except_forM_eq_ok fixed b hb)

end DiagramFile

end Influence
