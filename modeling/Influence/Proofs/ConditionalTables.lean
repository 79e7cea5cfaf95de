import Influence.Proofs.PathIteration
import Influence.Proofs.RenumberedRuns
import Influence.Proofs.Rows
import Influence.Proofs.Shift
import Influence.Proofs.Sound

/-!
# Tables that a strict diagram takes

A strict diagram checks probability tables piece by piece and evaluates paths entry by entry.  As
both read the same rows (`Tensor.rows_eq`), what it takes for a chance node are exactly the tables
of conditional distributions given the parents (`IsConditional`), whatever the number of parents
and of states (`setProbabilities_strict`).  Where only sums are at fault, the row that is reported
is the first one in lexicographic order of the parents' states, with its sum.
-/

namespace Influence

open Extended

/-! ## Sums of rows -/

/-- Infinities that are not negative do not cancel in a sum. -/
private theorem isFinite_of_isFinite_foldl {xs : List Exact} (nonneg : ∀ x ∈ xs, 0 ≤ x) {a : Exact}
    (start : 0 ≤ a) (sum : Scalar.isFinite (xs.foldl (· + ·) a) = true) :
    Scalar.isFinite a = true ∧ ∀ x ∈ xs, Scalar.isFinite x = true := by
  induction xs generalizing a with
  | nil => exact ⟨sum, fun x hx => by cases hx⟩
  | cons x xs ih =>
    obtain ⟨first, others⟩ := List.forall_mem_cons.mp nonneg
    have step : 0 ≤ a + x ∧ (Scalar.isFinite (a + x) = true →
        Scalar.isFinite a = true ∧ Scalar.isFinite x = true) := by
      cases a <;> cases x <;> first | exact start.elim | exact first.elim | skip
      case finite.finite a x => exact ⟨add_nonneg (a := a) start first, fun _ => ⟨rfl, rfl⟩⟩
      all_goals exact ⟨trivial, fun h => by cases h⟩
    obtain ⟨both, rest⟩ := ih others step.1 sum
    exact ⟨(step.2 both).1, List.forall_mem_cons.mpr ⟨(step.2 both).2, rest⟩⟩

theorem isFinite_of_isFinite_sum {xs : List Exact} (nonneg : ∀ x ∈ xs, 0 ≤ x)
    (sum : Scalar.isFinite (Scalar.sum xs) = true) : ∀ x ∈ xs, Scalar.isFinite x = true :=
  have start : 0 ≤ (finite (-0) : Exact) := by
    rw [neg_zero]
    exact le_refl (0 : ℚ)
  (isFinite_of_isFinite_foldl nonneg start sum).2

/-- What is close to one is a number. -/
theorem isFinite_of_approxEq {x tol : Exact} (close : approxEq x 1 tol = true) :
    Scalar.isFinite x = true := by
  cases x with
  | finite x => rfl
  | notANumber => cases close
  | bottom => cases close
  | top => cases close

namespace Tensor

variable {t : Tensor Exact} {dims : List ℕ} {n : ℕ} {q : List ℕ}

/-- The sum of the entries along the last axis, looked up at an index of the other axes. -/
def rowSum (t : Tensor Exact) (n : ℕ) (q : List ℕ) : Except (DiagramError Exact) Exact := do
  let row ← (List.range n).mapM fun s => t.entry (q ++ [s])
  pure (Scalar.sum row)

/-- The entries along the last axis sum to one, up to the tolerance of strict diagrams. -/
def HasUnitRow (t : Tensor Exact) (n : ℕ) (q : List ℕ) : Prop :=
  ∃ s, t.rowSum n q = .ok s ∧ approxEq s 1 massTolerance = true

theorem rowSum_eq_ok (size : t.data.size = t.shape.prod) (fits : t.data.size < Word.count64)
    (shape : t.shape = dims ++ [n]) (hq : inRange dims q = true) :
    t.rowSum n q = .ok (Scalar.sum (t.block n (rank dims q))) := by
  have counted : t.Counted := by
    rw [Counted, size, entryCount_of_lt (size ▸ fits)]
  rw [rowSum, counted.row_eq_ok (size ▸ fits) shape hq]
  rfl

theorem mem_of_mem_block {k : ℕ} {x : Exact} (hx : x ∈ t.block n k) : x ∈ t.data :=
  Array.mem_toList_iff.mp (List.mem_of_mem_drop (List.mem_of_mem_take hx))

/-- Every entry is in one of the rows. -/
theorem exists_block_of_mem (size : t.data.size = t.shape.prod) (shape : t.shape = dims ++ [n])
    {x : Exact} (hx : x ∈ t.data) :
    ∃ q, inRange dims q = true ∧ x ∈ t.block n (rank dims q) := by
  have length : t.data.toList.length = dims.prod * n := by
    rw [Array.length_toList, size, shape, List.prod_append, List.prod_singleton]
  rw [← Array.mem_toList_iff, ← flatten_map_drop_take length] at hx
  obtain ⟨row, hrow, hx⟩ := List.mem_flatten.mp hx
  obtain ⟨k, hk, rfl⟩ := List.mem_map.mp hrow
  obtain ⟨within, number⟩ := unravel_spec (List.mem_range.mp hk)
  exact ⟨unravel k dims, within, by rw [number]; exact hx⟩

/-- Entries that are not negative and have unit rows are numbers. -/
theorem isFinite_of_hasUnitRow (size : t.data.size = t.shape.prod)
    (fits : t.data.size < Word.count64) (shape : t.shape = dims ++ [n])
    (nonneg : ∀ x ∈ t.data, 0 ≤ x) (unit : ∀ q, inRange dims q = true → t.HasUnitRow n q) :
    ∀ x ∈ t.data, Scalar.isFinite x = true := by
  intro x hx
  obtain ⟨q, hq, hx⟩ := exists_block_of_mem size shape hx
  obtain ⟨s, sum, close⟩ := unit q hq
  obtain rfl := Except.ok.inj ((rowSum_eq_ok size fits shape hq).symm.trans sum)
  exact isFinite_of_isFinite_sum (fun y hy => nonneg y (mem_of_mem_block hy))
    (isFinite_of_approxEq close) x hx

end Tensor

/-! ## The row that is reported -/

namespace Diagram

variable {t : Tensor Exact} {dims : List ℕ} {n : ℕ}

/-- The search for a row that does not sum to one, over the indices of the other axes. -/
theorem unnormalizedRow?_eq (size : t.data.size = t.shape.prod) (shape : t.shape = dims ++ [n])
    (pos : 0 < n) (entries : ∀ x ∈ t.data, Scalar.isFinite x = true) :
    unnormalizedRow? t = (Paths.ofStates dims).toList.findSome? fun q =>
      if approxEq (Scalar.sum (t.block n (rank dims q))) 1 massTolerance then none
      else some (q, Scalar.sum (t.block n (rank dims q))) := by
  rw [unnormalizedRow?, Tensor.rows_eq shape pos size, List.findSome?_map]
  congr 1
  funext q
  have total : Mass.total (t.block n (rank dims q)) = Scalar.sum (t.block n (rank dims q)) := by
    have finite : ∀ x ∈ t.block n (rank dims q), Scalar.isFinite x = true :=
      fun x hx => entries x (Tensor.mem_of_mem_block hx)
    rw [← map_finite_map_rational finite, total_map_finite, sum_map_finite]
  rw [Function.comp_apply]
  dsimp only
  rw [total]

/-- In an ascending list, a property of what stands in front of an element is one of what is below
it. -/
private theorem first_iff {ps : List Path} (ascending : ps.Pairwise (· < ·)) {q : Path}
    {P : Path → Prop} : (∃ front back, ps = front ++ q :: back ∧ ∀ p ∈ front, P p) ↔
      q ∈ ps ∧ ∀ p ∈ ps, p < q → P p := by
  constructor
  · rintro ⟨front, back, rfl, before⟩
    exact ⟨List.mem_append_right front List.mem_cons_self, fun p hp less =>
      before p ((Paths.mem_front_iff ascending).mpr ⟨hp, less⟩)⟩
  · rintro ⟨hq, before⟩
    obtain ⟨front, back, rfl⟩ := List.append_of_mem hq
    refine ⟨front, back, rfl, fun p hp => ?_⟩
    obtain ⟨hp, less⟩ := (Paths.mem_front_iff ascending).mp hp
    exact before p hp less

/-- A row is reported if none is before it in lexicographic order. -/
theorem unnormalizedRow?_eq_some_iff (size : t.data.size = t.shape.prod)
    (fits : t.data.size < Word.count64) (shape : t.shape = dims ++ [n]) (pos : 0 < n)
    (entries : ∀ x ∈ t.data, Scalar.isFinite x = true) {q : List ℕ} {s : Exact} :
    unnormalizedRow? t = some (q, s) ↔
      inRange dims q = true ∧ t.rowSum n q = .ok s ∧ approxEq s 1 massTolerance = false ∧
        ∀ q', inRange dims q' = true → q' < q → t.HasUnitRow n q' := by
  have unit {q' : List ℕ} (hq : inRange dims q' = true) : t.HasUnitRow n q' ↔
      approxEq (Scalar.sum (t.block n (rank dims q'))) 1 massTolerance = true := by
    rw [Tensor.HasUnitRow, Tensor.rowSum_eq_ok size fits shape hq]
    simp
  have ascending : (Paths.ofStates dims).toList.Pairwise (· < ·) := by
    rw [Paths.toList_ofStates]
    exact Paths.pairwise_lt_all _
  rw [unnormalizedRow?_eq size shape pos entries, List.findSome?_eq_some_iff]
  constructor
  · rintro ⟨front, q', back, listed, found, before⟩
    split at found
    case isTrue => cases found
    case isFalse apart =>
      obtain ⟨rfl, rfl⟩ : q' = q ∧ Scalar.sum (t.block n (rank dims q')) = s := by simpa using found
      obtain ⟨hq, first⟩ := (first_iff ascending).mp ⟨front, back, listed, before⟩
      have hq := Paths.mem_toList_ofStates.mp hq
      refine ⟨hq, Tensor.rowSum_eq_ok size fits shape hq, by simpa using apart, fun p hp less => ?_⟩
      simpa [unit hp] using first p (Paths.mem_toList_ofStates.mpr hp) less
  · rintro ⟨hq, sum, apart, before⟩
    obtain rfl := Except.ok.inj ((Tensor.rowSum_eq_ok size fits shape hq).symm.trans sum)
    obtain ⟨front, back, listed, first⟩ := (first_iff ascending (P := fun p =>
        approxEq (Scalar.sum (t.block n (rank dims p))) 1 massTolerance = true)).mpr
      ⟨Paths.mem_toList_ofStates.mpr hq, fun p hp less =>
        (unit (Paths.mem_toList_ofStates.mp hp)).mp
          (before p (Paths.mem_toList_ofStates.mp hp) less)⟩
    refine ⟨front, q, back, listed, by rw [apart]; rfl, fun p hp => if_pos (first p hp)⟩

theorem unnormalizedRow?_eq_none_iff (size : t.data.size = t.shape.prod)
    (fits : t.data.size < Word.count64) (shape : t.shape = dims ++ [n]) (pos : 0 < n)
    (entries : ∀ x ∈ t.data, Scalar.isFinite x = true) :
    unnormalizedRow? t = none ↔ ∀ q, inRange dims q = true → t.HasUnitRow n q := by
  rw [unnormalizedRow?_eq size shape pos entries, List.findSome?_eq_none_iff]
  simp only [Paths.mem_toList_ofStates, ite_eq_left_iff, reduceCtorEq, imp_false, not_not]
  refine forall₂_congr fun q hq => ?_
  rw [Tensor.HasUnitRow, Tensor.rowSum_eq_ok size fits shape hq]
  simp

/-! ## Attaching -/

variable {d : Diagram Exact} {i : ℕ}

/-- No entry is refused. -/
theorem find?_unsuited_eq_none_iff :
    (t.data.toList.find? fun x => !Scalar.isFinite x || decide (x < 0)) = none ↔
      ∀ x ∈ t.data, ∃ r : ℚ, x = finite r ∧ 0 ≤ r := by
  simp only [List.find?_eq_none, Array.mem_toList_iff]
  refine forall₂_congr fun x _ => ?_
  cases x <;> simp [Scalar.isFinite, zero_eq_finite]

theorem unpack_plain_eq_ok {name : String} {u : Tensor Exact} :
    d.unpack name i (.plain t) = .ok u ↔ t.shape = d.expectedShape i ∧ u = t := by
  change (if t.shape = d.expectedShape i then (pure t : Except (DiagramError Exact) _)
    else .error _) = .ok u ↔ _
  split
  case isTrue shape => rw [except_pure_eq_ok, and_iff_right shape, eq_comm]
  case isFalse shape => exact iff_of_false nofun fun h => shape h.1

/-- A chance node of an assembled diagram takes tables under its name. -/
theorem Reachable.attachable_chance (h : Reachable d) (assembled : d.phase = .assembled)
    (hi : i ∈ d.chance) : d.attachable (d.nameOf i) .chance = .ok i := by
  have settled : d.phase ≠ .building := by rw [assembled]; decide
  have arranged := h.valid.arranged settled
  rw [arranged.chance, mem_positionsWhere] at hi
  obtain ⟨n, hn, kind⟩ := hi
  rw [attachable, assembled]
  dsimp only
  rw [arranged.lookup_nameOf settled hn]
  exact if_pos (beq_iff_eq.mp kind)

/-- Of a table whose entries are in order only the sums of rows may be at fault. -/
theorem fails_setProbabilities_iff {name : String} (found : d.attachable name .chance = .ok i)
    (shape : t.shape = d.expectedShape i)
    (entries : ∀ x ∈ t.data, ∃ r : ℚ, x = finite r ∧ 0 ≤ r) {error : DiagramError Exact}
    {e : Diagram Exact} : Fails (setProbabilities name (.plain t)) d error e ↔
      e = d ∧ ∃ q s, (if d.strict then unnormalizedRow? t else none) = some (q, s) ∧
        error = .unnormalizedProbability name q s := by
  have unpacked : d.unpack name i (.plain t) = .ok t := unpack_plain_eq_ok.mpr ⟨shape, rfl⟩
  unfold setProbabilities
  rw [fails_get_bind, fails_liftM_bind, found]
  simp only [reduceCtorEq, false_and, false_or, Except.ok.injEq, exists_eq_left', fails_liftM_bind,
    unpacked, find?_unsuited_eq_none_iff.mpr entries]
  cases (if d.strict then unnormalizedRow? t else none) with
  | none => exact iff_of_false not_fails_modify fun ⟨_, _, _, h, _⟩ => by cases h
  | some row =>
    obtain ⟨q, s⟩ := row
    rw [fails_throw]
    constructor
    · rintro ⟨rfl, rfl⟩
      exact ⟨rfl, q, s, rfl, rfl⟩
    · rintro ⟨rfl, q', s', same, rfl⟩
      obtain ⟨rfl, rfl⟩ := Prod.mk.inj (Option.some.inj same)
      exact ⟨rfl, rfl⟩

/-- The table of a node that gives a distribution of its states for any states of its parents. -/
structure IsConditional (d : Diagram Exact) (i : ℕ) (t : Tensor Exact) : Prop where
  shape : t.shape = d.expectedShape i
  nonneg : ∀ x ∈ t.data, 0 ≤ x
  unit : ∀ q, inRange (d.informationShape i) q = true → t.HasUnitRow (d.states.getD i 0) q

/-- A strict diagram takes for a chance node exactly the tables of conditional distributions.  Where
shape and entries are in order, the error names the first row in lexicographic order that does not
sum to one, and its sum.  The entries of a table are counted by machine words. -/
theorem setProbabilities_strict (h : Reachable d) (assembled : d.phase = .assembled)
    (strict : d.strict = true) (hi : i ∈ d.chance) (size : t.data.size = t.shape.prod)
    (fits : t.data.size < Word.count64) :
    (∀ e, Succeeds (setProbabilities (d.nameOf i) (.plain t)) d () e ↔
      d.IsConditional i t ∧ e = { d with tables := d.tables.set i (some t) }) ∧
    (t.shape = d.expectedShape i → (∀ x ∈ t.data, ∃ r : ℚ, x = finite r ∧ 0 ≤ r) →
      ∀ error e, Fails (setProbabilities (d.nameOf i) (.plain t)) d error e ↔
        e = d ∧ ∃ q s, error = .unnormalizedProbability (d.nameOf i) q s ∧
          inRange (d.informationShape i) q = true ∧ t.rowSum (d.states.getD i 0) q = .ok s ∧
          approxEq s 1 massTolerance = false ∧
          ∀ q', inRange (d.informationShape i) q' = true → q' < q →
            t.HasUnitRow (d.states.getD i 0) q') := by
  have arranged := h.valid.arranged (by rw [assembled]; decide)
  have found := h.attachable_chance assembled hi
  have expected := arranged.expectedShape_chance hi
  have pos := arranged.states_getD_pos (arranged.mem_chance_lt hi)
  have numbers (entries : ∀ x ∈ t.data, ∃ r : ℚ, x = finite r ∧ 0 ≤ r) :
      ∀ x ∈ t.data, Scalar.isFinite x = true := by
    intro x hx
    obtain ⟨r, rfl, -⟩ := entries x hx
    rfl
  constructor
  · intro e
    rw [succeeds_setProbabilities_iff]
    constructor
    · rintro ⟨j, u, found', unpacked, entries, rows, rfl⟩
      obtain rfl := Except.ok.inj (found.symm.trans found')
      obtain ⟨shape, rfl⟩ := unpack_plain_eq_ok.mp unpacked
      have entries := find?_unsuited_eq_none_iff.mp entries
      rw [strict, if_pos rfl] at rows
      refine ⟨⟨shape, fun x hx => ?_, ?_⟩, rfl⟩
      · obtain ⟨r, rfl, nonneg⟩ := entries x hx
        exact nonneg
      · exact (unnormalizedRow?_eq_none_iff size fits (shape.trans expected) pos
          (numbers entries)).mp rows
    · rintro ⟨conditional, rfl⟩
      have shape := conditional.shape.trans expected
      have finite := Tensor.isFinite_of_hasUnitRow size fits shape conditional.nonneg
        conditional.unit
      refine ⟨i, t, found, unpack_plain_eq_ok.mpr ⟨conditional.shape, rfl⟩, ?_, ?_, rfl⟩
      · refine find?_unsuited_eq_none_iff.mpr fun x hx => ?_
        have nonneg := conditional.nonneg x hx
        rw [← finite_rational (finite x hx)] at nonneg ⊢
        exact ⟨_, rfl, nonneg⟩
      · rw [strict, if_pos rfl]
        exact (unnormalizedRow?_eq_none_iff size fits shape pos finite).mpr conditional.unit
  · intro shape entries error e
    rw [fails_setProbabilities_iff found shape entries, strict, if_pos rfl]
    simp only [unnormalizedRow?_eq_some_iff size fits (shape.trans expected) pos (numbers entries)]
    refine and_congr_right fun _ => exists₂_congr fun q s => ?_
    rw [and_comm]

/-- A table for the train of the commute. -/
def trainTable (x : ℚ) : Tensor Exact := ⟨[2, 2], #[finite 0.5, finite 0.5, finite 1, finite x]⟩

/-- The commute takes a table for the train whose rows sum to one.  If the second row sums to two,
it is the one that is reported, and the first row is not. -/
theorem setProbabilities_strict_commute : Reachable (commuteTables true) ∧
    1 ∈ (commuteTables true).chance ∧ (commuteTables true).IsConditional 1 (trainTable 0) ∧
    Fails (setProbabilities ((commuteTables true).nameOf 1) (.plain (trainTable 1)))
      (commuteTables true) (.unnormalizedProbability ((commuteTables true).nameOf 1) [1] (finite 2))
      (commuteTables true) ∧
    ∀ q, inRange ((commuteTables true).informationShape 1) q = true → q < [1] →
      (trainTable 1).HasUnitRow ((commuteTables true).states.getD 1 0) q := by
  have reachable := reachable_commuteTables true
  have assembled : (commuteTables true).phase = .assembled := by decide +kernel
  have strict : (commuteTables true).strict = true := by decide +kernel
  have chance : 1 ∈ (commuteTables true).chance := by decide +kernel
  have takes : succeedsWith (setProbabilities ((commuteTables true).nameOf 1)
      (.plain (trainTable 0))) (commuteTables true) (fun _ _ => true) = true := by
    decide +kernel
  have refuses : failsWith (setProbabilities ((commuteTables true).nameOf 1)
      (.plain (trainTable 1))) (commuteTables true) (fun
        | .unnormalizedProbability _ q s => decide (q = [1] ∧ s = finite 2)
        | _ => false) = true := by
    decide +kernel
  obtain ⟨_, e, taken, -⟩ := exists_succeeds takes
  obtain ⟨error, e', failed, checked⟩ := exists_fails refuses
  have conditional := (((setProbabilities_strict reachable assembled strict chance
    (t := trainTable 0) rfl (by decide)).1 e).mp taken).1
  obtain ⟨rfl, q, s, rfl, -, -, -, first⟩ := ((setProbabilities_strict reachable assembled strict
    chance (t := trainTable 1) rfl (by decide)).2 (by decide +kernel)
    (find?_unsuited_eq_none_iff.mp (by decide +kernel)) error e').mp failed
  obtain ⟨rfl, rfl⟩ := of_decide_eq_true checked
  exact ⟨reachable, chance, conditional, failed, first⟩

end Diagram

end Influence
