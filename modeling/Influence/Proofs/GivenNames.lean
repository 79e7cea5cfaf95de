import Mathlib.Data.Set.Lattice
import Mathlib.Order.CompletePartialOrder
import Influence.Proofs.VariableNames
import Influence.Text.Listing

/-!
# Actions that give names

`Adds S x` says what an action does to the names of a program: it gives names of the set `S` only,
and from a program that has none of these, whose names differ, it never fails for a name that is
taken.  Sequences give the names of their parts (`Adds.bind`, `Adds.mapM`), where the sets have to
be disjoint.

That sets of names are disjoint is read off their parts, the runs between underscores: what parts
are joined with underscores gives these parts again (`parts_joined`).
-/

namespace Influence

namespace Program

variable {α : Type}

/-- The action gives names of the set only, each once, and from a program without them it does not
fail for a name that is taken. -/
def Adds {β : Type} (S : Set String) (x : ProgramM α β) : Prop :=
  ∀ m, m.Distinct → (∀ v, ∀ name ∈ S, m.given? v ≠ some name) → Ends x m fun r t =>
    t.Distinct ∧
    (∀ v name, t.given? v = some name → name ∈ S ∨ ∃ w, m.given? w = some name) ∧
    ∀ name, r ≠ .error (.duplicateVariable name)

namespace Adds

variable {β γ : Type} {S T : Set String} {x : ProgramM α β} {f : β → ProgramM α γ}

theorem mono (h : Adds S x) (sub : S ⊆ T) : Adds T x := by
  intro m distinct fresh
  refine (h m distinct fun v name mem => fresh v name (sub mem)).mono fun r t ht => ?_
  rcases ht with ⟨distinct, given, known⟩
  exact ⟨distinct, fun v name hv => (given v name hv).imp_left fun mem => sub mem, known⟩

/-- An action that leaves the program alone and does not fail for a name. -/
theorem of_unchanged (h : ∀ m, Ends x m fun r t =>
    t = m ∧ ∀ name, r ≠ .error (.duplicateVariable name)) : Adds ∅ x := by
  intro m distinct _
  refine (h m).mono fun r t ht => ?_
  rcases ht with ⟨rfl, known⟩
  exact ⟨distinct, fun v name hv => .inr ⟨v, hv⟩, known⟩

theorem pure (b : β) : Adds ∅ (pure b : ProgramM α β) :=
  of_unchanged fun _ => ⟨rfl, fun _ failed => by cases failed⟩

theorem throw {e : ProgramError α} (h : ∀ name, e ≠ .duplicateVariable name) :
    Adds ∅ (throw e : ProgramM α β) :=
  of_unchanged fun _ => ⟨rfl, fun name failed => h name (Except.error.inj failed)⟩

/-- A computation on the diagram fails for reasons of its own. -/
theorem lift_bind {y : Except (DiagramError α) β} (h : ∀ b, y = .ok b → Adds S (f b)) :
    Adds S ((liftM y : ProgramM α β) >>= f) := by
  intro m distinct fresh
  cases y with
  | ok b => exact h b rfl m distinct fresh
  | error e => exact ⟨distinct, fun v name hv => .inr ⟨v, hv⟩, fun name failed => by cases failed⟩

theorem bind (hx : Adds S x) (hf : ∀ b, Adds T (f b)) (disjoint : Disjoint S T) :
    Adds (S ∪ T) (x >>= f) := by
  intro m distinct fresh
  refine ends_bind ((hx m distinct fun v name mem => fresh v name (.inl mem)).mono
    fun r t ht => ?_)
  rcases ht with ⟨distinct, given, known⟩
  cases r with
  | error e =>
    refine ⟨distinct, fun v name hv => (given v name hv).imp_left .inl, fun name failed => ?_⟩
    exact known name (congrArg Except.error (Except.error.inj failed))
  | ok b =>
    have fresh' : ∀ v, ∀ name ∈ T, t.given? v ≠ some name := by
      intro v name mem hv
      rcases given v name hv with before | ⟨w, hw⟩
      · exact Set.disjoint_left.mp disjoint before mem
      · exact fresh w name (.inr mem) hw
    refine (hf b t distinct fresh').mono fun r u hu => ?_
    rcases hu with ⟨distinct, given', known⟩
    refine ⟨distinct, fun v name hv => ?_, known⟩
    rcases given' v name hv with later | ⟨w, hw⟩
    · exact .inl (.inr later)
    · exact (given w name hw).imp_left .inl

/-- What follows gives no names. -/
theorem bind_left (hx : Adds S x) (hf : ∀ b, Adds ∅ (f b)) : Adds S (x >>= f) :=
  (hx.bind hf (Set.disjoint_empty S)).mono (Set.union_empty S).subset

/-- What comes first gives no names. -/
theorem bind_right (hx : Adds ∅ x) (hf : ∀ b, Adds S (f b)) : Adds S (x >>= f) :=
  (hx.bind hf (Set.empty_disjoint S)).mono (Set.empty_union S).subset

theorem map (hx : Adds S x) (g : β → γ) : Adds S (g <$> x) := by
  rw [map_eq_pure_bind]
  exact hx.bind_left fun _ => pure _

/-- A check that fails for a reason of its own. -/
theorem check {c : Prop} [Decidable c] {e : ProgramError α} {k : PUnit → ProgramM α β}
    (he : ∀ name, e ≠ .duplicateVariable name) (hk : Adds S (k ⟨⟩)) :
    Adds S (if c then MonadExcept.throw e >>= k else k ⟨⟩) := by
  split
  · exact (throw he).bind_right fun _ => hk
  · exact hk

section Traversal

variable {A : β → Set String} {b : β} {bs : List β}

/-- What is done for the first of several gives its names, what follows those of the others. -/
theorem cons {δ : Type} {x : ProgramM α γ} {f : γ → ProgramM α δ} (hx : Adds (A b) x)
    (hf : ∀ c, Adds (⋃ c ∈ bs, A c) (f c)) (disjoint : ∀ c ∈ bs, Disjoint (A b) (A c)) :
    Adds (⋃ c ∈ b :: bs, A c) (x >>= f) := by
  refine (hx.bind hf (Set.disjoint_iUnion₂_right.mpr disjoint)).mono (Set.union_subset ?_ ?_)
  · exact Set.subset_biUnion_of_mem (u := A) List.mem_cons_self
  · exact Set.biUnion_subset_biUnion_left fun c hc => List.mem_cons_of_mem _ hc

theorem mapM {f : β → ProgramM α γ} (h : ∀ b ∈ bs, Adds (A b) (f b))
    (disjoint : bs.Pairwise fun b c => Disjoint (A b) (A c)) :
    Adds (⋃ b ∈ bs, A b) (bs.mapM f) := by
  induction bs with
  | nil =>
    rw [List.mapM_nil]
    exact (pure []).mono (Set.empty_subset _)
  | cons b bs ih =>
    rcases List.pairwise_cons.mp disjoint with ⟨first, rest⟩
    have later := ih (fun c hc => h c (List.mem_cons_of_mem _ hc)) rest
    rw [List.mapM_cons]
    exact (h b List.mem_cons_self).cons (fun c => later.bind_left fun _ => pure _) first

theorem filterMapM {f : β → ProgramM α (Option γ)} (h : ∀ b ∈ bs, Adds (A b) (f b))
    (disjoint : bs.Pairwise fun b c => Disjoint (A b) (A c)) :
    Adds (⋃ b ∈ bs, A b) (bs.filterMapM f) := by
  induction bs with
  | nil =>
    rw [List.filterMapM_nil]
    exact (pure []).mono (Set.empty_subset _)
  | cons b bs ih =>
    rcases List.pairwise_cons.mp disjoint with ⟨first, rest⟩
    have later := ih (fun c hc => h c (List.mem_cons_of_mem _ hc)) rest
    rw [List.filterMapM_cons]
    refine (h b List.mem_cons_self).cons (fun c => ?_) first
    cases c with
    | none => exact later
    | some c => exact later.bind_left fun _ => pure _

end Traversal

theorem addVariable (w : Variable α) :
    Adds {name | w.name = some name} (Program.addVariable w) := by
  intro m distinct fresh
  refine (ends_addVariable w m).mono fun r t ht => ?_
  rcases ht with ⟨name, v, named, carries, -⟩ | ⟨free, rfl, rfl⟩
  · exact absurd carries (fresh v name named)
  · refine ⟨distinct.push free, fun v name hv => ?_, fun name failed => by cases failed⟩
    rw [given?_push] at hv
    split at hv
    · exact .inl hv
    · exact .inr ⟨v, hv⟩

/-- A variable under a name, if it has one. -/
theorem addContinuous {S : Set String} (lower upper : α) {name : Option String}
    (h : ∀ n ∈ name, n ∈ S) : Adds S (Program.addContinuous lower upper name) :=
  (addVariable _).mono fun n hn => h n hn

variable [Scalar α]

theorem addBinary {S : Set String} {name : Option String} (h : ∀ n ∈ name, n ∈ S) :
    Adds S (Program.addBinary name : ProgramM α ℕ) :=
  (addVariable _).mono fun n hn => h n hn

theorem constrain (expr : LinearExpr α) (sense : Sense) (rhs : α) (isLazy : Bool) :
    Adds ∅ (Program.constrain expr sense rhs isLazy) := by
  intro m distinct _
  exact ⟨distinct, fun v name hv => .inr ⟨v, hv⟩, fun name failed => by cases failed⟩

end Adds

end Program

/-! ## The parts of a name -/

namespace Text

/-- The runs between underscores. -/
def parts (cs : List Char) : List (List Char) := runs (· == '_') cs

/-- A text without underscores. -/
def IsPart (cs : List Char) : Prop := cs ≠ [] ∧ '_' ∉ cs

theorem IsPart.solid {cs : List Char} (h : IsPart cs) : ∀ c ∈ cs, (c == '_') = false :=
  fun _ hc => beq_eq_false_iff_ne.mpr fun same => h.2 (same ▸ hc)

theorem isPart_repr (n : ℕ) : IsPart n.repr.toList := by
  refine ⟨(isField_repr n).nonempty, fun mem => ?_⟩
  have digit := isDigit_of_mem_repr mem
  cases digit

theorem parts_append {w : List Char} (h : IsPart w) (rest : List Char) :
    parts (w ++ '_' :: rest) = w :: parts rest :=
  runs_append h.1 h.solid rfl rest

theorem parts_part {w : List Char} (h : IsPart w) : parts w = [w] := runs_solid h.1 h.solid

theorem joined_cons (t : String) {ts : List String} (h : ts ≠ []) :
    joined "_" (t :: ts) = t ++ "_" ++ joined "_" ts := by
  cases ts with
  | nil => exact absurd rfl h
  | cons u us => rfl

theorem toList_joined_cons (t : String) {ts : List String} (h : ts ≠ []) :
    (joined "_" (t :: ts)).toList = t.toList ++ '_' :: (joined "_" ts).toList := by
  rw [joined_cons t h, String.toList_append, String.toList_append, List.append_assoc]
  rfl

/-- What is joined with underscores has the parts that were joined. -/
theorem parts_joined {ts : List String} (h : ∀ t ∈ ts, IsPart t.toList) :
    parts (joined "_" ts).toList = ts.map String.toList := by
  induction ts with
  | nil => rfl
  | cons t ts ih =>
    rcases List.forall_mem_cons.mp h with ⟨first, rest⟩
    by_cases last : ts = []
    · subst last
      exact parts_part first
    · rw [toList_joined_cons t last, parts_append first, ih rest, List.map_cons]

theorem parts_joined_repr (ns : List ℕ) :
    parts (joined "_" (ns.map Nat.repr)).toList = ns.map fun n => n.repr.toList := by
  rw [parts_joined, List.map_map]
  · rfl
  · intro t ht
    rcases List.mem_map.mp ht with ⟨n, -, rfl⟩
    exact isPart_repr n

theorem repr_toList_injective : Function.Injective fun n : ℕ => n.repr.toList := by
  intro a b same
  have read := Numeral.natural?_repr a
  rw [show a.repr.toList = b.repr.toList from same, Numeral.natural?_repr] at read
  exact (Option.some.inj read).symm

/-- Numbers joined with underscores can be told apart. -/
theorem joined_repr_injective : Function.Injective fun ns : List ℕ =>
    joined "_" (ns.map Nat.repr) := by
  intro ns ms same
  have equal := congrArg (fun t : String => parts t.toList) same
  dsimp only at equal
  rw [parts_joined_repr, parts_joined_repr] at equal
  exact repr_toList_injective.list_map equal

end Text

end Influence
