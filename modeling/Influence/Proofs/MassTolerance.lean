import Influence.Proofs.ExpectedUtility
import Influence.Proofs.Ordering
import Influence.Proofs.TableSizes

/-!
# Two tolerances for probability mass

A strict diagram takes a probability row whose sum is within `rowTolerance` of one, and a program
with a cut takes an assignment whose mass is within the tolerance of the solver.  The first does
not give the second.  The deviations of rows multiply along a path: over the paths of a strategy
they leave a mass between two powers, one factor for each chance node
(`Attained.mass_between`), and the assignment of the strategy is feasible exactly at the
tolerances that this mass is within (`isFeasible_iff_mass`).  Such a program has evaluated every
path, so no probability table has more entries than a word can count
(`Attained.prod_lt_of_probabilityOf`).

A single coin whose row was accepted is already too loose for the tolerance that solvers have by
default (`not_isFeasible_loose`).
-/

namespace Influence

open Extended Program

/-! ## Accepted rows -/

/-- How far the sum of a probability row may be from one. -/
def rowTolerance : ℚ := 1 / 10 ^ 8

theorem massTolerance_eq : (massTolerance : Exact) = finite rowTolerance := by
  change finite (1e-8 : ℚ) = finite (1 / 10 ^ 8)
  norm_num

theorem rowTolerance_lt_one : rowTolerance < 1 := by norm_num [rowTolerance]

/-- What is equal to one up to the tolerance of rows. -/
theorem between_of_approxEq {s : ℚ} (h : approxEq (finite s : Exact) 1 massTolerance = true) :
    1 - rowTolerance ≤ s ∧ s ≤ (1 - rowTolerance)⁻¹ := by
  have close : |s - 1| ≤ max rowTolerance (rowTolerance * max |s| 1) := by
    simpa [approxEq, Scalar.isInfinite, massTolerance_eq, one_eq_finite] using h
  have relative : |s - 1| ≤ rowTolerance * max |s| 1 := by
    refine close.trans (max_le ?_ le_rfl)
    exact le_mul_of_one_le_right (by norm_num [rowTolerance]) (le_max_right _ _)
  have size : max |s| 1 ≤ 1 + |s - 1| := by
    refine max_le ?_ (le_add_of_nonneg_right (abs_nonneg _))
    linarith [abs_sub_abs_le_abs_sub s 1, (abs_one : |(1 : ℚ)| = 1)]
  rw [← one_div, le_div_iff₀ (sub_pos.mpr rowTolerance_lt_one)]
  unfold rowTolerance at relative ⊢
  rcases abs_le.mp (show |s - 1| ≤ 1 by linarith) with ⟨low, -⟩
  rcases le_total s 1 with below | above
  · rw [max_eq_right (abs_le.mpr ⟨by linarith, below⟩)] at relative
    constructor <;> linarith [neg_abs_le (s - 1)]
  · rw [abs_of_nonneg (by linarith : 0 ≤ s), max_eq_left above] at relative
    constructor <;> linarith [le_abs_self (s - 1)]

namespace Diagram

section Rows

variable {α : Type} [Scalar α] {d : Diagram α}

omit [Scalar α] in
/-- Some path goes through any states of the parents of a node and any state of the node. -/
theorem Arranged.exists_path (h : Arranged d) {j s : ℕ} (distinct : (d.informationSet j).Nodup)
    {q : List ℕ} (hq : inRange (d.informationShape j) q = true) (hj : j < d.states.length)
    (hs : s < d.states.getD j 0) :
    ∃ p, inRange d.states p = true ∧ d.informationState j p = q ∧ p.getD j 0 = s := by
  obtain ⟨length, small⟩ := inRange_iff_getD.mp hq
  rw [informationShape, List.length_map] at length small
  let f (i : ℕ) : ℕ := if i = j then s else q.getD ((d.informationSet j).idxOf i) 0
  have read {i : ℕ} (hi : i < d.states.length) :
      ((List.range d.states.length).map f).getD i 0 = f i := by
    rw [List.getD_eq_getElem _ _ (by simpa using hi), List.getElem_map, List.getElem_range]
  refine ⟨(List.range d.states.length).map f, inRange_iff_getD.mpr ⟨by simp, fun i hi => ?_⟩, ?_,
    (read hj).trans (if_pos rfl)⟩
  · rw [read hi]
    by_cases own : i = j
    · rwa [show f i = s from if_pos own, own]
    rw [show f i = _ from if_neg own]
    by_cases observed : i ∈ d.informationSet j
    · have place := List.idxOf_lt_length_of_mem observed
      have below := small _ place
      rwa [List.getD_eq_getElem (List.map _ _) _ (by simpa using place), List.getElem_map,
        List.getElem_idxOf place] at below
    · rw [List.getD_eq_default _ _ (by rw [List.idxOf_of_notMem observed, length])]
      exact h.states_getD_pos hi
  · rw [informationState]
    refine List.ext_getElem ((List.length_map _).trans length.symm) fun k hk hk' => ?_
    rw [List.length_map] at hk
    obtain ⟨before, inner⟩ := h.parents j _ (List.getElem_mem hk)
    rw [List.getElem_map, read inner, show f _ = _ from if_neg before.ne,
      distinct.idxOf_getElem k hk, List.getD_eq_getElem _ _ hk']

/-- A table that can be read along all paths has no more entries than a word can count. -/
theorem Attained.prod_lt_of_probabilityOf (h : Attained d) (laws : Scalar.HasShares α)
    (assembled : d.phase ≠ .building)
    (evaluated : ∀ p, inRange d.states p = true → ∃ w, d.probabilityOf p = .ok w) {j : ℕ}
    (hj : j ∈ d.chance) {t : Tensor α} (ht : d.table? j = some t) :
    t.shape.prod < Word.count64 := by
  have consistent := h.consistent laws
  have arranged := consistent.arranged assembled
  have fitting := consistent.fitting j t ht
  have inner := arranged.mem_chance_lt hj
  refine fitting.counted.readable_iff.mp fun index member => ?_
  have within := mem_indices.mp member
  refine ⟨within, ?_⟩
  rw [fitting.shape, arranged.expectedShape_chance hj] at within
  obtain ⟨q, s, hq, hs, rfl⟩ := exists_of_inRange_concat within
  obtain ⟨p, hp, observed, own⟩ :=
    arranged.exists_path (h.nodup_informationSet j) hq (arranged.mem_chance_lt hj) hs
  obtain ⟨w, run⟩ := evaluated p hp
  obtain ⟨factors, read, -⟩ := except_bind_eq_ok.mp run
  obtain ⟨x, -, entry⟩ := except_eq_ok_of_mem_mapM read hj
  rw [ht, observed, own] at entry
  exact Tensor.position_lt_of_entry entry

/-- The entries for the states of a chance node are one of the rows of its table. -/
theorem Consistent.exists_row (h : Consistent d) (generated : d.phase = .generated)
    (fits : ∀ i ∈ d.chance, ∀ t, d.table? i = some t → t.shape.prod < Word.count64) {j : ℕ}
    (hj : j ∈ d.chance) {q : List ℕ} (hq : inRange (d.informationShape j) q = true) :
    ∃ t xs, d.table? j = some t ∧ d.row j q = .ok xs ∧ ∃ k, (k, xs) ∈ t.rows := by
  have arranged := h.arranged (by rw [generated]; decide)
  rcases Option.isSome_iff_exists.mp (h.complete generated j hj) with ⟨t, ht⟩
  have fitting := h.fitting j t ht
  have shape := fitting.shape
  rw [arranged.expectedShape_chance hj] at shape
  have pos := arranged.states_getD_pos (arranged.mem_chance_lt hj)
  rcases fitting.counted.exists_row (fits j hj t ht) shape pos hq with ⟨xs, run, listed⟩
  refine ⟨t, xs, ht, ?_, listed⟩
  rw [row, ht]
  exact run

end Rows

variable {d : Diagram Exact}

/-- Wherever operations lead, the tables of a generated diagram have all their rows. -/
theorem Attained.weighed (h : Attained d) (generated : d.phase = .generated)
    (fits : ∀ i ∈ d.chance, ∀ t, d.table? i = some t → t.shape.prod < Word.count64) :
    d.Weighed where
  reachable := h.reachable
  generated := generated
  rows j hj q hq := by
    rcases (h.consistent Scalar.hasShares_exact).exists_row generated fits hj hq with
      ⟨_, xs, _, run, _⟩
    exact ⟨xs, run⟩

/-- The shares of a uniform table sum to one. -/
theorem Weighed.sum_uniform (h : d.Weighed) {j : ℕ} (hj : j ∈ d.chance)
    (table : d.table? j = some (d.uniform j)) {q : List ℕ}
    (hq : inRange (d.informationShape j) q = true) :
    ((List.range (d.states.getD j 0)).map (d.chanceAt j q)).sum = 1 := by
  have inside := h.arranged.mem_chance_lt hj
  have nonzero : (d.states.getD j 0 : ℚ) ≠ 0 :=
    Nat.cast_ne_zero.mpr (h.arranged.states_getD_pos inside).ne'
  have share (s : ℕ) (hs : s ∈ List.range (d.states.getD j 0)) :
      d.chanceAt j q s = 1 / d.states.getD j 0 := by
    rcases h.entry_eq hj hq (List.mem_range.mp hs) with ⟨t, ht, entry, -⟩
    rw [table, Option.some.injEq] at ht
    subst ht
    have equal := eq_of_mem_filled (mem_data_of_entry entry)
    rw [← h.arranged.states_getD_eq inside, ofNat_eq_finite, one_eq_finite,
      finite_div 1 nonzero, Extended.finite.injEq] at equal
    exact equal
  rw [List.map_congr_left share, List.map_const', List.sum_replicate, List.length_range,
    nsmul_eq_mul, mul_one_div_cancel nonzero]

/-- In a strict diagram every row sums to nearly one: it was accepted or it is uniform. -/
theorem Attained.row_between (h : Attained d) (strict : d.strict = true)
    (generated : d.phase = .generated)
    (fits : ∀ i ∈ d.chance, ∀ t, d.table? i = some t → t.shape.prod < Word.count64) {j : ℕ}
    (hj : j ∈ d.chance) {q : List ℕ} (hq : inRange (d.informationShape j) q = true) :
    1 - rowTolerance ≤ ((List.range (d.states.getD j 0)).map (d.chanceAt j q)).sum ∧
      ((List.range (d.states.getD j 0)).map (d.chanceAt j q)).sum ≤ (1 - rowTolerance)⁻¹ := by
  have consistent := h.consistent Scalar.hasShares_exact
  have weighed := h.weighed generated fits
  rcases consistent.exists_row generated fits hj hq with ⟨t, xs, ht, run, k, listed⟩
  rcases (consistent.fitting j t ht).rows hj strict with rfl | accepted
  · rw [weighed.sum_uniform hj ht hq]
    norm_num [rowTolerance]
  · have checked := List.findSome?_eq_none_iff.mp accepted _ listed
    rw [weighed.row_eq_ok hj hq, Except.ok.injEq] at run
    rw [← run] at checked
    dsimp only at checked
    rw [total_map_finite] at checked
    split at checked
    case isTrue close => exact between_of_approxEq close
    case isFalse => cases checked

/-- What the tolerance of rows leaves of the mass of a strategy. -/
theorem Attained.mass_between (h : Attained d) (strict : d.strict = true)
    (generated : d.phase = .generated)
    (fits : ∀ i ∈ d.chance, ∀ t, d.table? i = some t → t.shape.prod < Word.count64) {σ : Strategy}
    (covers : σ.Covers d) :
    (1 - rowTolerance) ^ d.chance.length ≤ ∑ p ∈ σ.followers d, d.weight p ∧
      ∑ p ∈ σ.followers d, d.weight p ≤ (1 - rowTolerance)⁻¹ ^ d.chance.length := by
  refine (h.weighed generated fits).mass_between covers ?_ ?_ fun j hj q hq =>
    h.row_between strict generated fits hj hq
  · exact sub_nonneg.mpr rowTolerance_lt_one.le
  · norm_num [rowTolerance]

end Diagram

/-! ## Accepted assignments -/

section Feasible

variable {d : Diagram Exact} {o : PathVariableOptions Exact} {isLazy : Bool}
  {z : DecisionVariables} {x : PathVariables Exact} {m₁ m : Program Exact} {σ : Strategy}

open DecisionVariables (strategyOf)

/-- Where no state is forced, every path in range was evaluated for its probability. -/
theorem PathVariables.exists_probabilityOf {start : ℕ} (h : LaidOut d z o x start)
    (unforced : o.fixed = .empty) {p : Path} (hp : inRange d.states p = true) :
    ∃ w, d.probabilityOf p = .ok w := by
  obtain ⟨ps, listed, -, known⟩ := h.paths
  have member : p ∈ ps.toList := by
    rw [Paths.mem_toList_withFixed listed, unforced]
    exact ⟨hp, nofun⟩
  obtain ⟨r, evaluated⟩ := known p member
  obtain ⟨w, weighed, -⟩ := except_bind_eq_ok.mp evaluated
  exact ⟨w, weighed⟩

/-- Where no path is forbidden and no state forced, the variables of a strategy's paths carry its
whole mass. -/
theorem Encoding.sum_of_follows (enc : Encoding d o isLazy z x m) (hn : d.Weighed)
    (allowed : o.forbidden = []) (unforced : o.fixed = .empty) {a : ℕ → ℚ}
    (shares : ∀ t ∈ x.vars, a t.2 = if (strategyOf z a).Follows d t.1 then 1 else 0) :
    (x.vars.map fun t => d.weight t.1 * x.scale.rational * a t.2).sum =
      x.scale.rational * ∑ p ∈ (strategyOf z a).followers d, d.weight p := by
  rw [enc.paths.sum_scaled hn, mass_of_follows enc shares]
  congr 1
  refine Finset.sum_subset (Finset.filter_subset _ _) fun p hp missing => ?_
  by_contra weight
  refine missing (Finset.mem_filter.mpr ⟨hp, (enc.paths.mem_paths_iff hn).mpr ⟨?_, weight, ?_, ?_⟩⟩)
  · exact (Strategy.mem_followers.mp hp).1
  · rw [allowed]
    exact fun f hf => (List.not_mem_nil hf).elim
  · rw [unforced]
    exact fun i s hs => by cases hs

/-- The powers that bound a mass: the upper one is the farther from one. -/
theorem abs_sub_one_le_of_between {mass low : ℚ} (pos : 0 < low) (above : low ≤ mass)
    (below : mass ≤ low⁻¹) : |mass - 1| ≤ low⁻¹ - 1 := by
  have farther : 1 - low ≤ low⁻¹ - 1 := by
    have balance : low⁻¹ - 1 - (1 - low) = (1 - low) ^ 2 / low := by
      field_simp
    have := div_nonneg (sq_nonneg (1 - low)) pos.le
    linarith
  rw [abs_le]
  constructor <;> linarith

/-- In a program with default options the assignment of a strategy makes the variables of its
decisions and of its paths one and all others zero.  It is feasible exactly at the tolerances that
the mass of these paths is within.  In a strict diagram every chance node adds its tolerance, and
the assignment is feasible at every tolerance that makes up for all of them. -/
theorem isFeasible_iff_mass (attained : d.Attained) (strict : d.strict = true)
    (generated : d.phase = .generated) {names : Bool}
    (decisions : Succeeds (DecisionVariables.build d names) .empty z m₁)
    (paths : Succeeds (PathVariables.build d z ⟨true, [], .empty, true, 1, none⟩) m₁ x m)
    (small : m.vars.size < Word.count64) (covers : σ.Covers d) :
    ∃ values : Array Exact, values.size = m.vars.size ∧
      (∀ v ∈ z.vars, values.getD v 0 = 0 ∨ values.getD v 0 = 1) ∧
      (∃ τ, Strategy.Encoded d z x ⟨values, 0⟩ τ ∧ ∀ i ∈ d.decision, τ.local? i = σ.local? i) ∧
      (∀ t : ℚ, 0 ≤ t → (m.isFeasible values (finite t) = true ↔
        |∑ p ∈ σ.followers d, d.weight p - 1| ≤ t)) ∧
      (1 - rowTolerance) ^ d.chance.length ≤ ∑ p ∈ σ.followers d, d.weight p ∧
      ∑ p ∈ σ.followers d, d.weight p ≤ (1 - rowTolerance)⁻¹ ^ d.chance.length ∧
      ∀ t : ℚ, (1 - rowTolerance)⁻¹ ^ d.chance.length - 1 ≤ t →
        m.isFeasible values (finite t) = true := by
  have fits (i : ℕ) (hi : i ∈ d.chance) (t : Tensor Exact) (ht : d.table? i = some t) :
      t.shape.prod < Word.count64 :=
    attained.prod_lt_of_probabilityOf Scalar.hasShares_exact (by rw [generated]; decide)
      (fun _ => PathVariables.exists_probabilityOf (PathVariables.succeeds_build_paths paths).1 rfl)
      hi ht
  have weighed := attained.weighed generated fits
  have enc := (PathVariables.added_of_build paths).encoding decisions
  have few : z.vars.length < Word.count64 := by
    rw [enc.size_eq] at small
    omega
  set values := valuesOf m.vars.size (assignmentOf d z x σ) with made
  rcases enc.assignmentOf_spec weighed covers made with
    ⟨size, assignment, choice, same, shares⟩
  have followers : (strategyOf z (reading values)).followers d = σ.followers d :=
    Finset.filter_congr fun p _ => Strategy.follows_congr same
  have scale : x.scale.rational = 1 := by
    rw [enc.paths.scale]
    rfl
  have sense : x.cutSense = .eq := enc.cutSense_eq weighed fun e he => (by cases he)
  have feasible (t : ℚ) (nonneg : 0 ≤ t) : m.isFeasible values (finite t) = true ↔
      |∑ p ∈ σ.followers d, d.weight p - 1| ≤ t := by
    have linked := isLinked_of_follows enc weighed few choice shares
    rw [enc.isFeasible_iff_passes weighed (.inl rfl) few size assignment linked nonneg, sense,
      enc.sum_of_follows weighed rfl rfl shares, followers, scale, one_mul]
    rfl
  have bits (v : ℕ) (hv : v ∈ z.vars) : values.getD v 0 = 0 ∨ values.getD v 0 = 1 := by
    rw [assignment.isFinite v ((enc.mem_vars_lt hv).trans_le (Nat.le_add_right _ _))]
    exact (assignment.bits v hv).imp (congrArg finite) (congrArg finite)
  rcases attained.mass_between strict generated fits covers with ⟨above, below⟩
  refine ⟨values, enc.size_eq ▸ size, bits,
    ⟨_, enc.encoded_of_follows weighed few assignment choice shares, same⟩, feasible, above, below,
    fun t ht => ?_⟩
  rw [inv_pow] at below ht
  have near := abs_sub_one_le_of_between (pow_pos (sub_pos.mpr rowTolerance_lt_one) _) above below
  exact (feasible t ((abs_nonneg _).trans (near.trans ht))).mpr (near.trans ht)

end Feasible

/-! ## A loose coin -/

/-- The wager with a coin whose row is within the tolerance of rows. -/
def looseFile : DiagramFile Exact :=
  { wagerFile false .default with
    probabilities := [("coin", .array [.scalar (finite 0.5), .scalar (finite 0.500000005)])] }

/-- The diagram of the wager with a loose coin. -/
def loose : Diagram Exact := looseFile.build.toOption.getD (.empty true)

theorem attained_loose : loose.Attained :=
  DiagramFile.attained_of_build (except_eq_ok_of_isOk _ (by decide +kernel))

/-- The strategy that bets. -/
def betting : Strategy := ⟨[⟨0, "bet", [], [], [1]⟩]⟩

theorem covers_betting : betting.Covers loose := by
  have single : loose.decision = [0] := by decide +kernel
  exact Strategy.covers_of_single single rfl (by decide +kernel) (by decide +kernel)

/-- The assignment of betting: the bet is one, and so are its two paths. -/
def bettingValues : Array Exact := #[0, 1, 0, 0, 1, 1]

/-- The runs that build a program for the wager with a loose coin. -/
theorem runs_loose : succeedsWith (DecisionVariables.build loose true) .empty
    (fun z m₁ => succeedsWith (PathVariables.build loose z ⟨true, [], .empty, true, 1, none⟩) m₁
      fun x m => decide ((z.strategy ⟨bettingValues, 0⟩).toOption = some betting) &&
        (m.vars.size == 6 && !m.isFeasible bettingValues (finite (1 / 10 ^ 9)) &&
          x.vars.all fun t => decide (bettingValues.getD t.2 0 =
            if t.1 ∈ [[1, 0], [1, 1]] then 1 else 0))) = true := by
  decide +kernel

/-- Although the coin is loose, a tolerance ten times that of rows is enough. -/
theorem isFeasible_iff_mass_loose :
    ∃ z m₁ x m, Succeeds (DecisionVariables.build loose true) .empty z m₁ ∧
      Succeeds (PathVariables.build loose z ⟨true, [], .empty, true, 1, none⟩) m₁ x m ∧
      betting.Covers loose ∧ ∃ values : Array Exact,
        (∃ τ, Strategy.Encoded loose z x ⟨values, 0⟩ τ ∧
          ∀ i ∈ loose.decision, τ.local? i = betting.local? i) ∧
        m.isFeasible values (finite (1 / 10 ^ 7)) = true := by
  rcases exists_succeeds runs_loose with ⟨z, m₁, decisions, checks⟩
  rcases exists_succeeds checks with ⟨x, m, paths, checks⟩
  simp only [Bool.and_eq_true, beq_iff_eq] at checks
  have single : loose.chance.length = 1 := by decide +kernel
  rcases isFeasible_iff_mass attained_loose (by decide +kernel) (by decide +kernel) decisions
    paths (by rw [checks.2.1.1]; decide) covers_betting with
    ⟨values, -, -, encoded, -, -, -, feasible⟩
  refine ⟨z, m₁, x, m, decisions, paths, covers_betting, values, encoded, feasible _ ?_⟩
  rw [single]
  norm_num [rowTolerance]

/-- A strict diagram took the row of the coin, and yet betting is not feasible at one tenth of the
tolerance of rows. -/
theorem not_isFeasible_loose : loose.Attained ∧ loose.strict = true ∧ loose.phase = .generated ∧
    ∃ z m₁ x m, Succeeds (DecisionVariables.build loose true) .empty z m₁ ∧
      Succeeds (PathVariables.build loose z ⟨true, [], .empty, true, 1, none⟩) m₁ x m ∧
      bettingValues.size = m.vars.size ∧ Strategy.Encoded loose z x ⟨bettingValues, 0⟩ betting ∧
      m.isFeasible bettingValues (finite (1 / 10 ^ 9)) = false := by
  rcases exists_succeeds runs_loose with ⟨z, m₁, decisions, checks⟩
  rcases exists_succeeds checks with ⟨x, m, paths, checks⟩
  simp only [Bool.and_eq_true, beq_iff_eq, Bool.not_eq_true', decide_eq_true_eq,
    List.all_eq_true] at checks
  rcases checks with ⟨reads, ⟨size, infeasible⟩, shares⟩
  rcases exists_eq_ok_of_any (x := z.strategy ⟨bettingValues, 0⟩) (fun τ => decide (τ = betting))
    (by rw [reads]; decide) with ⟨τ, strategy, same⟩
  obtain rfl := of_decide_eq_true same
  rcases exists_eq_ok_of_any (x := betting.compatiblePaths loose .empty)
    (fun ps => decide (ps = [[1, 0], [1, 1]])) (by decide +kernel) with ⟨ps, compatible, listed⟩
  obtain rfl := of_decide_eq_true listed
  exact ⟨attained_loose, by decide +kernel, by decide +kernel, z, m₁, x, m, decisions, paths,
    size.symm, ⟨strategy, covers_betting, _, compatible, shares⟩, infeasible⟩

end Influence
