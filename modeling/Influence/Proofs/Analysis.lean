import Influence.Proofs.Binning
import Influence.Proofs.DecisionTables
import Influence.Proofs.FailedCalls
import Influence.Proofs.ForbiddenPaths
import Influence.Proofs.Marginals
import Influence.Study.Report
import Influence.Study.Validation

/-!
# Analysis of a solution

The analysis of a solution reads its strategy, follows that through the diagram for the
probabilities of states and once more for the utilities, rounds these if that is asked for, and
measures what comes out.  Each step has errors of its own.  Of these only that of the first is left
for a compiled program of a normalized diagram with the default utility
(`Compiled.analyze_total`): probabilities that sum to one make a distribution that has moments,
rounded or not (`Distribution.HasUnitMass`), validation has checked the levels of risk, and every
path has a utility.

The utility of a path may be missing all the same, where a table has more entries than a word can
count.  The read is then past the end of the table and ends the program.
-/

namespace Influence

open Extended

/-! ## Distributions of mass one -/

namespace Distribution

/-- The probabilities of the utilities sum to one. -/
def HasUnitMass (x : Distribution Exact) : Prop :=
  ∃ points, x.points = lift points ∧ IsListing points ∧ massOf points = 1

namespace HasUnitMass

variable {x : Distribution Exact}

theorem points_ne_nil (h : x.HasUnitMass) : x.points ≠ [] := by
  obtain ⟨points, eq, -, mass⟩ := h
  rintro nothing
  rw [nothing, eq_comm, lift, List.map_eq_nil_iff] at eq
  subst eq
  exact zero_ne_one mass

/-- Rounding the utilities keeps the mass. -/
theorem withPrecision (h : x.HasUnitMass) (decimals : ℕ) :
    (x.withPrecision decimals).HasUnitMass := by
  obtain ⟨points, eq, listing, mass⟩ := h
  obtain ⟨moved, eq', listing', weights, -⟩ := listing.exists_moved (bin (width decimals))
  refine ⟨moved, by rw [withPrecision_eq eq, eq'], listing', ?_⟩
  rw [massOf_eq_weigh, weights, ← massOf_eq_weigh, mass]

/-- It has both risk measures at levels between zero and one. -/
theorem exists_riskMeasures (h : x.HasUnitMass) {levels : List Exact}
    (admitted : ∀ level ∈ levels, 0 ≤ level ∧ level ≤ 1) :
    ∃ measures, x.riskMeasures levels = .ok measures := by
  refine exists_except_mapM fun level member => ?_
  have value : ∃ v, x.valueAtRisk level = .ok v := by
    refine exists_except_bind (if_pos (admitted level member)) ?_
    rw [List.getLast?_eq_some_getLast h.points_ne_nil]
    exact ⟨_, rfl⟩
  rcases value with ⟨v, hv⟩
  refine exists_except_bind hv (exists_except_map (exists_except_bind hv ?_))
  split
  · exact ⟨v, rfl⟩
  · exact ⟨_, rfl⟩

variable [Root ℚ]

/-- A distribution of mass one has moments, a least and a greatest utility. -/
theorem exists_statistics (h : x.HasUnitMass) : ∃ statistics, x.statistics = .ok statistics := by
  rcases List.exists_cons_of_ne_nil h.points_ne_nil with ⟨least, rest, listed⟩
  obtain ⟨points, eq, listing, mass⟩ := h
  obtain ⟨m, moments, -⟩ := moments_eq eq listing.positive (mass ▸ one_pos)
  refine exists_except_bind moments ?_
  rw [Distribution.utilities, listed, List.map_cons, List.head?_cons, List.getLast?_cons]
  exact ⟨_, rfl⟩

theorem exists_report (h : x.HasUnitMass) {levels : List Exact}
    (admitted : ∀ level ∈ levels, 0 ≤ level ∧ level ≤ 1) :
    ∃ r, UtilityReport.ofDistribution x levels = .ok r := by
  rcases h.exists_statistics with ⟨statistics, computed⟩
  exact exists_except_bind computed (exists_except_map (h.exists_riskMeasures admitted))

end HasUnitMass

section Strategy

variable {d : Diagram Exact} {σ : Strategy}

/-- A strategy that covers a normalized diagram has a distribution of mass one, or there is a path
that follows, has a probability, and has no utility. -/
theorem ofStrategy_cases (covers : σ.Covers d) (hn : d.Normalized) :
    (∃ x, ofStrategy d σ = .ok x ∧ x.HasUnitMass ∧
      ∀ p ∈ σ.followers d, d.weight p ≠ 0 → ∃ u, d.rawPathUtility p = .ok u) ∨
    ∃ e, ofStrategy d σ = .error e ∧
      ∃ p ∈ σ.followers d, d.weight p ≠ 0 ∧ d.rawPathUtility p = .error e := by
  cases run : ofStrategy d σ with
  | ok x =>
    have valued := valued_of_ofStrategy covers hn run
    obtain ⟨y, points, again, eq, ascending, positive, mass, -⟩ :=
      exists_points_ofStrategy covers hn valued
    obtain rfl := Except.ok.inj (run.symm.trans again)
    refine .inl ⟨x, rfl, ⟨points, eq, ⟨ascending, positive⟩, mass⟩, fun p hp weight => ?_⟩
    obtain ⟨inside, follows⟩ := Strategy.mem_followers.mp hp
    exact ⟨_, valued p inside follows weight⟩
  | error e =>
    obtain ⟨ps, paths, -, member⟩ := covers.compatiblePaths_eq_ok hn.arranged hn.assembled
    have generated : d.isGenerated = true := by
      rw [Diagram.isGenerated, hn.generated]
      rfl
    unfold ofStrategy at run
    simp only [generated, Bool.not_true, Bool.false_eq_true, if_false] at run
    rw [σ.collect_eq paths] at run
    obtain ⟨p, hp, step⟩ :=
      exists_of_except_filterMapM_eq_error (except_map_eq_error.mp run)
    obtain ⟨inside, follows⟩ := (member p).mp hp
    rw [hn.weighed.probabilityOf_eq inside] at step
    rcases except_bind_eq_error.mp step with unknown | ⟨w, known, step⟩
    · cases unknown
    obtain rfl := Except.ok.inj known
    split at step
    case isTrue positive =>
      refine .inr ⟨e, rfl, p, Strategy.mem_followers.mpr ⟨inside, follows⟩, ?_,
        except_map_eq_error.mp step⟩
      exact ne_of_gt positive
    case isFalse => cases step

end Strategy

end Distribution

/-! ## What a report lists -/

section Lists

variable {α : Type} [Scalar α] {d : Diagram α}

omit [Scalar α] in
/-- The report of a strategy that is read off a solution has a rule for every state of the
information of every decision node, in their orders. -/
theorem StrategyReport.rules_ofStrategy {z : DecisionVariables} {start : ℕ}
    (h : DecisionVariables.LaidOut d z start) (a : ℕ → ℚ) :
    (ofStrategy d (DecisionVariables.strategyOf z a)).decisions.map
        (fun l => (l.node, l.rules.map (·.informationState))) =
      d.decision.map fun i =>
        (d.nameOf i, (Paths.ofStates (d.informationShape i)).toList.map (d.observedNames i)) := by
  rw [← h.nodes, List.map_map, ofStrategy, DecisionVariables.strategyOf, List.map_map, List.map_map]
  refine List.map_congr_left fun l hl => ?_
  have isFor := h.locals l hl
  refine Prod.ext isFor.name ?_
  change ((DecisionVariables.localOf a l).rules.map _).map _ =
    (Paths.ofStates (d.informationShape l.node)).toList.map (d.observedNames l.node)
  rw [DecisionVariables.rules_localOf, List.map_map, List.map_map, ← isFor.shape]
  refine List.map_congr_left fun q _ => ?_
  rw [Diagram.observedNames, ← isFor.informationSet]
  rfl

omit [Scalar α] in
/-- The nodes with states are the first ones. -/
theorem Diagram.Arranged.take_nodes (arranged : d.Arranged) :
    d.nodes.take d.states.length = d.nodes.filter fun n => !n.isValue := by
  conv_rhs => rw [← List.take_append_drop d.states.length d.nodes]
  have front : (d.nodes.take d.states.length).filter (fun n => !n.isValue) =
      d.nodes.take d.states.length := by
    refine List.filter_eq_self.mpr fun n hn => ?_
    obtain ⟨i, hi, rfl⟩ := List.mem_take_iff_getElem.mp hn
    obtain ⟨m, hm, inner, -⟩ := arranged.inner i (by omega)
    rw [List.getElem?_eq_getElem (by omega), Option.some.injEq] at hm
    rw [hm, inner]
    rfl
  have back : (d.nodes.drop d.states.length).filter (fun n => !n.isValue) = [] := by
    refine List.filter_eq_nil_iff.mpr fun n hn => ?_
    obtain ⟨i, hi, rfl⟩ := List.mem_drop_iff_getElem.mp hn
    have outer := arranged.outer _ _ (List.getElem?_eq_getElem hi) (Nat.le_add_left _ _)
    simpa [Nat.add_comm] using outer
  rw [List.filter_append, front, back, List.append_nil]

omit [Scalar α] in
/-- The report of state probabilities has an entry for every chance and decision node, with the
states of the node and its row. -/
theorem StateProbabilityReport.nodes_ofProbabilities (arranged : d.Arranged)
    {x : StateProbabilities α} (names : x.names = StateProbabilities.stateNodes d)
    (rows : x.rows.map List.length = d.states) :
    (ofProbabilities d x).nodes.map (fun n => (n.node, n.kind, n.states.map (·.1))) =
        (d.nodes.filter fun n => !n.isValue).map (fun n => (n.name, n.kind, n.states)) ∧
      (ofProbabilities d x).nodes.map (fun n => n.states.map (·.2)) = x.rows := by
  have count : x.rows.length = d.states.length := by rw [← rows, List.length_map]
  have node (i : ℕ) (hi : i < x.rows.length) : ∃ listed : i < d.nodes.length,
      x.rows[i].length = d.nodes[i].states.length := by
    obtain ⟨n, hn, -, number⟩ := arranged.inner i (count ▸ hi)
    obtain ⟨listed, rfl⟩ := List.getElem?_eq_some_iff.mp hn
    refine ⟨listed, ?_⟩
    rw [← rows, List.getElem?_map, List.getElem?_eq_getElem hi, Option.map_some,
      Option.some.injEq] at number
    exact number
  have fewer : x.rows.length ≤ d.nodes.length :=
    Nat.le_of_not_lt fun more => lt_irrefl _ (node _ more).1
  rw [← arranged.take_nodes, ofProbabilities, names, StateProbabilities.stateNodes, List.map_map,
    List.map_map, ← count]
  refine ⟨List.ext_getElem ?_ fun i hi hi' => ?_, List.ext_getElem ?_ fun i hi hi' => ?_⟩
  · simp
  · have inside : i < x.rows.length := by
      rw [List.length_map, List.length_take] at hi'
      omega
    obtain ⟨listed, length⟩ := node i inside
    simpa using List.map_fst_zip length.ge
  · simp [fewer]
  · obtain ⟨listed, length⟩ := node i hi'
    simpa using List.map_snd_zip length.le

/-- A report on utilities has the points of the distribution and an entry for every level. -/
theorem UtilityReport.lists_of_ofDistribution [Root α] {x : Distribution α} {levels : List α}
    {r : UtilityReport α} (run : ofDistribution x levels = .ok r) :
    r.outcomes = x.points ∧ r.risk.map (·.alpha) = levels := by
  obtain ⟨statistics, -, run⟩ := except_bind_eq_ok.mp run
  obtain ⟨risk, measured, run⟩ := except_bind_eq_ok.mp run
  obtain rfl := except_pure_eq_ok.mp run
  refine ⟨rfl, ?_⟩
  have entries := except_mapM_eq_ok_iff.mp measured
  rw [← List.forall₂_eq_eq_eq, List.forall₂_map_left_iff]
  refine entries.flip.imp fun measure level run => ?_
  obtain ⟨v, -, run⟩ := except_bind_eq_ok.mp run
  obtain ⟨w, -, run⟩ := except_bind_eq_ok.mp run
  obtain rfl := except_pure_eq_ok.mp run
  rfl

end Lists

/-! ## The analysis -/

/-- A report is complete: it has a rule for every state of the information of every decision node, a
distribution of the states of every chance and decision node, an outcome, and an entry for every
level of risk. -/
structure SolveReport.Complete (d : Diagram Exact) (levels : List Exact)
    (report : SolveReport Exact) : Prop where
  strategy : report.strategy.decisions.map (fun l => (l.node, l.rules.map (·.informationState))) =
    d.decision.map fun i =>
      (d.nameOf i, (Paths.ofStates (d.informationShape i)).toList.map (d.observedNames i))
  states : report.stateProbabilities.nodes.map (fun n => (n.node, n.kind, n.states.map (·.1))) =
    (d.nodes.filter fun n => !n.isValue).map fun n => (n.name, n.kind, n.states)
  distributions : ∀ n ∈ report.stateProbabilities.nodes,
    (∀ q ∈ n.states.map (·.2), 0 ≤ q) ∧ Scalar.sum (n.states.map (·.2)) = 1
  outcomes : report.utility.outcomes ≠ []
  risk : report.utility.risk.map (·.alpha) = levels

/-- The distribution that a report is on, with its utilities rounded if that is asked for. -/
def AnalysisSettings.rounded (settings : AnalysisSettings Exact) (x : Distribution Exact) :
    Distribution Exact :=
  match settings.precision with
  | some decimals => x.withPrecision decimals
  | none => x

theorem AnalysisSettings.hasUnitMass_rounded {settings : AnalysisSettings Exact}
    {x : Distribution Exact} (h : x.HasUnitMass) : (settings.rounded x).HasUnitMass := by
  unfold rounded
  split
  · exact h.withPrecision _
  · exact h

namespace Compiled

variable [Root ℚ] {d : Diagram Exact} {c : Compiled Exact} {s : Solution Exact} {σ : Strategy}
  {settings : AnalysisSettings Exact} {info : RunInfo}

omit [Root ℚ] in
private theorem liftM_eq_ok {β : Type} {x : Except (DiagramError Exact) β} {b : β}
    (h : (liftM x : Except (ProgramError Exact) β) = .ok b) : x = .ok b := by
  cases x with
  | ok y => exact congrArg Except.ok (Except.ok.inj h)
  | error e => cases h

/-- The steps of an analysis that succeeds. -/
theorem analyze_runs {report : SolveReport Exact}
    (run : c.analyze d s settings info = .ok report) :
    ∃ σ probabilities x utility, c.decisions.strategy s = .ok σ ∧
      StateProbabilities.ofStrategy d σ = .ok probabilities ∧ Distribution.ofStrategy d σ = .ok x ∧
      UtilityReport.ofDistribution (settings.rounded x) settings.riskLevels = .ok utility ∧
      report = ⟨info, c.summary, ⟨c.objective.name, c.maximize, c.objective.alpha?,
        c.objective.value s⟩, .ofStrategy d σ, .ofProbabilities d probabilities, utility⟩ := by
  obtain ⟨σ, read, run⟩ := except_bind_eq_ok.mp run
  obtain ⟨probabilities, states, run⟩ := except_bind_eq_ok.mp run
  obtain ⟨x, distributed, run⟩ := except_bind_eq_ok.mp run
  obtain ⟨utility, reported, run⟩ := except_bind_eq_ok.mp run
  exact ⟨σ, probabilities, x, utility, read, liftM_eq_ok states, liftM_eq_ok distributed, reported,
    (except_pure_eq_ok.mp run).symm⟩

/-- Without a strategy there is no report. -/
theorem analyze_eq_error {e : ProgramError Exact} (unread : c.decisions.strategy s = .error e) :
    c.analyze d s settings info = .error e :=
  except_bind_eq_error.mpr (.inl unread)

/-- A strategy that covers a normalized diagram is reported on, or there is a path that follows, has
a probability, and has no utility. -/
theorem analyze_cases (hn : d.Normalized) (read : c.decisions.strategy s = .ok σ)
    (covers : σ.Covers d) (admitted : ∀ level ∈ settings.riskLevels, 0 ≤ level ∧ level ≤ 1)
    (info : RunInfo) :
    (∃ report, c.analyze d s settings info = .ok report ∧
      ∀ p ∈ σ.followers d, d.weight p ≠ 0 → ∃ u, d.rawPathUtility p = .ok u) ∨
    ∃ e, c.analyze d s settings info = .error (.diagram e) ∧
      ∃ p ∈ σ.followers d, d.weight p ≠ 0 ∧ d.rawPathUtility p = .error e := by
  obtain ⟨probabilities, states, -⟩ := StateProbabilities.exists_ofStrategy covers hn
  rcases Distribution.ofStrategy_cases covers hn with
    ⟨x, distributed, mass, valued⟩ | ⟨e, failed, missing⟩
  · obtain ⟨utility, reported⟩ := (settings.hasUnitMass_rounded mass).exists_report admitted
    have runs : ∃ report, c.analyze d s settings info = .ok report := by
      refine exists_except_bind read ?_
      rw [states, distributed]
      exact exists_except_bind rfl (exists_except_bind rfl (exists_except_map ⟨utility, reported⟩))
    obtain ⟨report, run⟩ := runs
    exact .inl ⟨report, run, valued⟩
  · refine .inr ⟨e, ?_, missing⟩
    refine except_bind_eq_error.mpr (.inr ⟨σ, read, ?_⟩)
    rw [states, failed]
    rfl

/-- A strategy whose paths have utilities can be reported on. -/
theorem exists_report (hn : d.Normalized) (read : c.decisions.strategy s = .ok σ)
    (covers : σ.Covers d)
    (valued : ∀ p ∈ σ.followers d, d.weight p ≠ 0 → ∃ u, d.rawPathUtility p = .ok u)
    (admitted : ∀ level ∈ settings.riskLevels, 0 ≤ level ∧ level ≤ 1) (info : RunInfo) :
    ∃ report, c.analyze d s settings info = .ok report := by
  rcases analyze_cases hn read covers admitted info with
    ⟨report, run, -⟩ | ⟨e, -, p, hp, weight, missing⟩
  · exact ⟨report, run⟩
  · obtain ⟨u, known⟩ := valued p hp weight
    rw [known] at missing
    cases missing

/-- The report of a strategy that is read off a solution is complete. -/
theorem complete_of_analyze {start : ℕ} (laidOut : DecisionVariables.LaidOut d c.decisions start)
    (small : c.decisions.vars.length < Word.count64) (hn : d.Normalized)
    {report : SolveReport Exact} (run : c.analyze d s settings info = .ok report) :
    report.Complete d settings.riskLevels := by
  obtain ⟨σ, probabilities, x, utility, read, states, distributed, reported, rfl⟩ :=
    analyze_runs run
  have covers :=
    DecisionVariables.covers_of_strategy laidOut hn.arranged hn.assembled small read
  obtain ⟨y, again, names, lengths, rows⟩ := StateProbabilities.exists_ofStrategy covers hn
  obtain rfl := Except.ok.inj (states.symm.trans again)
  obtain ⟨nodes, entries⟩ :=
    StateProbabilityReport.nodes_ofProbabilities hn.arranged names lengths
  obtain ⟨outcomes, risk⟩ := UtilityReport.lists_of_ofDistribution reported
  refine ⟨?_, nodes, fun n hn => rows _ ?_, ?_, risk⟩
  · obtain ⟨-, rfl⟩ := DecisionVariables.eq_strategyOf_mark laidOut hn.arranged small read
    exact StrategyReport.rules_ofStrategy laidOut _
  · exact entries ▸ List.mem_map_of_mem hn
  · rcases Distribution.ofStrategy_cases covers hn with ⟨z, again, mass, -⟩ | ⟨e, failed, -⟩
    · obtain rfl := Except.ok.inj (distributed.symm.trans again)
      exact outcomes ▸ (settings.hasUnitMass_rounded mass).points_ne_nil
    · rw [failed] at distributed
      cases distributed

/-- A solution is reported on exactly if it has a strategy, and the paths of positive probability
that follow it have utilities. -/
theorem exists_report_iff {start : ℕ} (laidOut : DecisionVariables.LaidOut d c.decisions start)
    (small : c.decisions.vars.length < Word.count64) (hn : d.Normalized)
    (admitted : ∀ level ∈ settings.riskLevels, 0 ≤ level ∧ level ≤ 1) :
    (∃ report, c.analyze d s settings info = .ok report) ↔
      ∃ σ, c.decisions.strategy s = .ok σ ∧
        ∀ p ∈ σ.followers d, d.weight p ≠ 0 → ∃ u, d.rawPathUtility p = .ok u := by
  have covers {σ : Strategy} (read : c.decisions.strategy s = .ok σ) : σ.Covers d :=
    DecisionVariables.covers_of_strategy laidOut hn.arranged hn.assembled small read
  constructor
  · rintro ⟨report, run⟩
    obtain ⟨σ, -, -, -, read, -⟩ := analyze_runs run
    rcases analyze_cases hn read (covers read) admitted info with ⟨-, -, valued⟩ | ⟨e, failed, -⟩
    · exact ⟨σ, read, valued⟩
    · rw [run] at failed
      cases failed
  · rintro ⟨σ, read, valued⟩
    exact exists_report hn read (covers read) valued admitted info

/-- A solution that is not reported on has no strategy, or the utility of a path is missing. -/
theorem analyze_eq_error_cases {start : ℕ}
    (laidOut : DecisionVariables.LaidOut d c.decisions start)
    (small : c.decisions.vars.length < Word.count64) (hn : d.Normalized)
    (admitted : ∀ level ∈ settings.riskLevels, 0 ≤ level ∧ level ≤ 1) {e : ProgramError Exact}
    (failed : c.analyze d s settings info = .error e) :
    c.decisions.strategy s = .error e ∨
      ∃ cause p, e = .diagram cause ∧ inRange d.states p = true ∧
        d.rawPathUtility p = .error cause := by
  cases read : c.decisions.strategy s with
  | error e' =>
    obtain rfl := Except.error.inj (failed.symm.trans (analyze_eq_error read))
    exact .inl rfl
  | ok σ =>
    have covers :=
      DecisionVariables.covers_of_strategy laidOut hn.arranged hn.assembled small read
    rcases analyze_cases hn read covers admitted info with
      ⟨report, run, -⟩ | ⟨cause, failed', p, hp, -, missing⟩
    · rw [run] at failed
      cases failed
    · obtain rfl := Except.error.inj (failed.symm.trans failed')
      exact .inr ⟨cause, p, rfl, (Strategy.mem_followers.mp hp).1, missing⟩

end Compiled

/-- Validation checks the levels of risk. -/
theorem Settings.riskLevels_of_validate {settings : Settings Exact}
    (valid : settings.validate = .ok ()) :
    ∀ level ∈ settings.analysis.riskLevels, 0 ≤ level ∧ level ≤ 1 := by
  unfold validate at valid
  obtain ⟨-, -, valid⟩ := except_bind_eq_ok.mp valid
  dsimp only at valid
  split at valid
  case isTrue => cases valid
  split at valid
  case isTrue => cases valid
  intro level member
  have checked := except_forM_eq_ok valid level member
  split at checked
  case isTrue within => exact within
  case isFalse => cases checked

namespace Diagram

variable {d : Diagram Exact} {p : Path}

/-- Where the utility of a path is missing, it was looked for past the end of a table. -/
theorem exists_missingEntry_of_rawPathUtility (additive : d.pathUtility = some .additive)
    (generated : d.phase = .generated) (hp : inRange d.states p = true) {e : DiagramError Exact}
    (missing : d.rawPathUtility p = .error e) : ∃ index shape, e = .missingEntry index shape := by
  rw [rawPathUtility, checkPath_eq_ok_iff.mpr ⟨generated, hp⟩] at missing
  exact exists_missingEntry_of_utilityOf additive missing

end Diagram

/-- With the default utility, that of the diagram of a file is the sum over its value nodes. -/
theorem DiagramFile.pathUtility_of_build {f : DiagramFile Exact} {d : Diagram Exact}
    (default : f.generate.options.defaultUtility = true) (built : f.build = .ok d) :
    d.pathUtility = some .additive := by
  obtain ⟨assembled, -, generated⟩ := except_bind_eq_ok.mp built
  exact Diagram.pathUtility_of_generate default (Diagram.after_eq_ok_iff.mp generated)

section Total

variable [Root ℚ] {f : DiagramFile Exact} {d : Diagram Exact} {c : Compiled Exact}
  {settings : Settings Exact}

/-- The analysis of a solution succeeds exactly if the solution has a strategy and the paths that
follow it, those of probability zero apart, have utilities, which they do if words can count the
entries of the tables.  So its only error is that of a group of decision variables of which not
exactly one counts as chosen, as long as no table is read past its end; and what it reports is
complete. -/
theorem Compiled.analyze_total (default : f.generate.options.defaultUtility = true)
    (built : f.build = .ok d) (hn : d.Normalized) (compiled : f.compile d = .ok c)
    (small : c.program.vars.size < Word.count64) (valid : settings.validate = .ok ())
    (s : Solution Exact) (info : RunInfo) :
    ((∃ report, c.analyze d s settings.analysis info = .ok report) ↔
      ∃ σ, c.decisions.strategy s = .ok σ ∧
        ∀ p ∈ σ.followers d, d.weight p ≠ 0 → ∃ u, d.rawPathUtility p = .ok u) ∧
    (d.hasCountableTables = true →
      ((∃ report, c.analyze d s settings.analysis info = .ok report) ↔
        ∃ σ, c.decisions.strategy s = .ok σ)) ∧
    (∀ e, c.analyze d s settings.analysis info = .error e →
      (c.decisions.strategy s = .error e ∧ ∃ i q, (i, q) ∈ d.informationStates ∧
        e = .infeasibleStrategy (d.nameOf i) q (c.decisions.activeAt s (i, q))) ∨
      d.hasCountableTables = false ∧ ∃ index shape, e = .diagram (.missingEntry index shape)) ∧
    ∀ report, c.analyze d s settings.analysis info = .ok report →
      report.Complete d settings.analysis.riskLevels := by
  obtain ⟨o, -, compiled⟩ := except_bind_eq_ok.mp compiled
  obtain ⟨laidOut, first⟩ := DiagramFile.decisions_of_compileWith compiled
  have small := first.trans_lt small
  have admitted := Settings.riskLevels_of_validate valid
  have attained := DiagramFile.attained_of_build built
  have additive := DiagramFile.pathUtility_of_build default built
  have known (countable : d.hasCountableTables = true) {p : Path} (hp : inRange d.states p = true) :
      ∃ u, d.rawPathUtility p = .ok u :=
    attained.exists_rawPathUtility Scalar.hasShares_exact hn.generated countable
      (by rw [additive]; rfl) hp
  refine ⟨exists_report_iff laidOut small hn admitted, fun countable => ?_, fun e failed => ?_,
    fun report run => complete_of_analyze laidOut small hn run⟩
  · rw [exists_report_iff laidOut small hn admitted]
    refine exists_congr fun σ => and_iff_left fun p hp _ => ?_
    exact known countable (Strategy.mem_followers.mp hp).1
  · rcases analyze_eq_error_cases laidOut small hn admitted failed with
      unread | ⟨cause, p, rfl, hp, missing⟩
    · obtain ⟨i, q, found, infeasible⟩ :=
        (DecisionVariables.strategy_eq_error_iff laidOut hn.arranged).mp unread
      exact .inl ⟨unread, i, q, List.mem_of_find?_eq_some found, infeasible⟩
    · obtain ⟨index, shape, rfl⟩ :=
        Diagram.exists_missingEntry_of_rawPathUtility additive hn.generated hp missing
      refine .inr ⟨Bool.eq_false_of_not_eq_true fun countable => ?_, index, shape, rfl⟩
      obtain ⟨u, found⟩ := known countable hp
      rw [found] at missing
      cases missing

end Total

/-- The square root of a number that has a rational one. -/
instance rationalRoot : Root ℚ := ⟨Rat.sqrt⟩

/-- A solution that takes the wager is reported on, and one that chooses nothing is not. -/
theorem Compiled.analyze_total_wager :
    (wagerFile false .default).build = .ok (wager false) ∧ (wager false).Normalized ∧
    (Settings.default : Settings Exact).validate = .ok () ∧
    ∃ c, (wagerFile false .default).compile (wager false) = .ok c ∧
      c.program.vars.size < Word.count64 ∧
      (∃ report, c.analyze (wager false) ⟨#[0, 1, 0, 0, 1, 1], 0⟩ .default
          ⟨"run", "now", "wager", "search"⟩ = .ok report ∧
        report.Complete (wager false) (.default : AnalysisSettings Exact).riskLevels) ∧
      ¬ ∃ report, c.analyze (wager false) ⟨#[0, 0, 0, 0, 0, 0], 0⟩ .default
          ⟨"run", "now", "wager", "search"⟩ = .ok report := by
  have normalized := normalized_wager false
  have built : (wagerFile false .default).build = .ok (wager false) :=
    except_eq_ok_of_isOk _ (by decide +kernel)
  have valid : (Settings.default : Settings Exact).validate = .ok () :=
    except_eq_ok_of_isOk () (by decide +kernel)
  have countable : (wager false).hasCountableTables = true := by decide +kernel
  obtain ⟨c, compiled, checks⟩ := exists_eq_ok_of_any
    (x := (wagerFile false .default).compile (wager false))
    (fun c => c.program.vars.size == 6 &&
      ((c.decisions.strategy (⟨#[0, 1, 0, 0, 1, 1], 0⟩ : Solution Exact)).isOk &&
        !(c.decisions.strategy (⟨#[0, 0, 0, 0, 0, 0], 0⟩ : Solution Exact)).isOk))
    (by decide +kernel)
  simp only [Bool.and_eq_true, beq_iff_eq, Bool.not_eq_true'] at checks
  obtain ⟨size, chosen, unchosen⟩ := checks
  have small : c.program.vars.size < Word.count64 := by
    rw [size]
    decide
  refine ⟨built, normalized, valid, c, compiled, small, ?_, ?_⟩
  · obtain ⟨-, reported, -, complete⟩ := analyze_total rfl built normalized compiled small valid
      ⟨#[0, 1, 0, 0, 1, 1], 0⟩ ⟨"run", "now", "wager", "search"⟩
    obtain ⟨report, run⟩ := (reported countable).mpr ⟨_, except_eq_ok_of_isOk ⟨[]⟩ chosen⟩
    exact ⟨report, run, complete report run⟩
  · obtain ⟨-, reported, -⟩ := analyze_total rfl built normalized compiled small valid
      ⟨#[0, 0, 0, 0, 0, 0], 0⟩ ⟨"run", "now", "wager", "search"⟩
    intro run
    obtain ⟨σ, read⟩ := (reported countable).mp run
    rw [read] at unchosen
    cases unchosen

end Influence
