import Influence.Proofs.Attained
import Influence.Proofs.NameFamilies
import Influence.Study.Compiled

/-!
# The names in compiled programs

Every encoder gives names of one family, each once (`adds_program`).  All these names are
identifiers, and none starts with a `v`.  So no variable of a compiled program shadows another, and
its solutions survive as text (`compile_names`).
-/

namespace Influence

open Text Program

/-! ## What the encoders name -/

section Encoders

variable {α : Type} [Scalar α] {d : Diagram α}

theorem adds_addGroup (names : Bool) (node : ℕ) (name : String) (states : ℕ) (q : List ℕ) :
    Adds (α := α) (groupNames node name q)
      (DecisionVariables.addGroup names node name states q) := by
  unfold DecisionVariables.addGroup
  have bits : Adds (α := α) (⋃ s ∈ List.range states,
      {DecisionVariables.variableName node name q s})
      ((List.range states).mapM fun s => Program.addBinary
        (if names then some (DecisionVariables.variableName node name q s) else none)) := by
    refine .mapM (fun s _ => .addBinary fun n hn => ?_) (List.nodup_range.imp fun differ => ?_)
    · cases names with
      | true => exact (Option.some.inj hn).symm
      | false => cases hn
    · exact Set.disjoint_singleton.mpr fun same => differ (variableName_injective same).2
  refine (bits.mono (Set.iUnion₂_subset fun s _ => ?_)).bind_left fun group =>
    (Adds.constrain _ _ _ _).bind_left fun _ => .pure _
  exact Set.singleton_subset_iff.mpr ⟨s, rfl⟩

theorem adds_addLocal (names : Bool) (node : ℕ) :
    Adds (nodeNames node (d.nameOf node)) (DecisionVariables.addLocal d names node) := by
  unfold DecisionVariables.addLocal
  have groups : Adds (α := α)
      (⋃ q ∈ (Paths.ofStates (d.informationShape node)).toList, groupNames node (d.nameOf node) q)
      ((Paths.ofStates (d.informationShape node)).toList.mapM
        (DecisionVariables.addGroup names node (d.nameOf node) (d.states.getD node 0))) :=
    .mapM (fun q _ => adds_addGroup names node _ _ q)
      ((Paths.nodup_toList_ofStates _).imp fun differ => disjoint_groupNames differ)
  refine (groups.mono (Set.iUnion₂_subset fun q _ => ?_)).bind_left fun _ => .pure _
  exact Set.subset_iUnion _ q

theorem adds_build_decisions (nodup : d.decision.Nodup) (names : Bool) :
    Adds decisionNames (DecisionVariables.build d names) := by
  unfold DecisionVariables.build
  have locals := Adds.mapM (fun i _ => adds_addLocal (d := d) names i)
    (nodup.imp fun differ => disjoint_nodeNames differ _ _)
  have all := (locals.mono (Set.iUnion₂_subset fun i _ => Set.subset_iUnion_of_subset i
    (Set.subset_iUnion (nodeNames i) (d.nameOf i)))).bind_left fun locals =>
      Adds.pure (DecisionVariables.mk locals)
  exact .check (fun _ same => by cases same) all

theorem adds_link (z : DecisionVariables) (p : Path) (x : ℕ) (nodes : List ℕ)
    (linked : LinearExpr α) : Adds ∅ (PathVariables.link d z p x nodes linked) := by
  induction nodes generalizing linked with
  | nil => exact .pure _
  | cons node rest ih =>
    unfold PathVariables.link
    split
    · exact .throw fun _ same => by cases same
    · exact (Adds.constrain _ _ _ _).bind_left fun _ => ih _

theorem adds_addUnlessOmitted (z : DecisionVariables) (o : PathVariableOptions α) (p : Path) :
    Adds {PathVariables.variableName p} (PathVariables.addUnlessOmitted d z o p) := by
  have path : Adds {PathVariables.variableName p} (PathVariables.addPath d z o p) := by
    unfold PathVariables.addPath
    refine (Adds.addContinuous 0 1 fun n hn => ?_).bind_left fun x =>
      (adds_link z p x _ _).bind_left fun linked => ?_
    · cases names : o.names with
      | true =>
        rw [names] at hn
        exact (Option.some.inj hn).symm
      | false =>
        rw [names] at hn
        cases hn
    · split
      · exact (Adds.constrain _ _ _ _).bind_left fun _ => .pure _
      · exact .pure _
  unfold PathVariables.addUnlessOmitted
  refine .lift_bind fun omission _ => ?_
  cases omission with
  | some _ => exact (Adds.pure _).mono (Set.empty_subset _)
  | none => exact path.bind_left fun _ => .pure _

theorem pathName_injective : Function.Injective PathVariables.variableName := by
  intro p q same
  exact joined_repr_injective ((String.append_right_inj _).mp same)

theorem adds_build_paths (z : DecisionVariables) (o : PathVariableOptions α) :
    Adds pathNames (PathVariables.build d z o) := by
  have vars {ps : Paths} (run : (Paths.withFixed d.states o.fixed :
      Except (DiagramError α) Paths) = .ok ps) :
      Adds pathNames (ps.toList.filterMapM (PathVariables.addUnlessOmitted d z o)) := by
    refine (Adds.filterMapM (fun p _ => adds_addUnlessOmitted z o p)
      ((Paths.nodup_toList_withFixed run).imp fun differ => ?_)).mono
        (Set.iUnion₂_subset fun p _ => ?_)
    · exact Set.disjoint_singleton.mpr fun same => differ (pathName_injective same)
    · exact Set.singleton_subset_iff.mpr ⟨p, rfl⟩
  unfold PathVariables.build
  refine .check (fun _ same => by cases same) (.check (fun _ same => by cases same) ?_)
  refine .lift_bind fun forced _ => .lift_bind fun ps run => (vars run).bind_left fun vars => ?_
  dsimp only
  split
  · exact .lift_bind fun mass _ => (Adds.constrain _ _ _ _).bind_left fun cut => .pure _
  · exact .pure _

/-- The variables of an outcome go by its number. -/
theorem outcome_names (k : ℕ) :
    "lambda_" ++ k.repr = numberedName ["lambda"] k ∧
    "lambda_bar_" ++ k.repr = numberedName ["lambda", "bar"] k ∧
    "rho_" ++ k.repr = numberedName ["rho"] k ∧
    "rho_bar_" ++ k.repr = numberedName ["rho", "bar"] k := by
  have two (word word' : String) : numberedName [word, word'] k =
      (word ++ "_" ++ (word' ++ "_")) ++ k.repr := (String.append_assoc ..).symm
  rw [two, two]
  exact ⟨congrArg (· ++ k.repr) (by decide +kernel), congrArg (· ++ k.repr) (by decide +kernel),
    congrArg (· ++ k.repr) (by decide +kernel), congrArg (· ++ k.repr) (by decide +kernel)⟩

theorem adds_addOutcome (x : PathVariables α) (bigM epsilon : α) (eta k : ℕ)
    (o : TailUtility.Outcome α) :
    Adds (outcomeNames k) (TailUtility.addOutcome x bigM epsilon eta k o) := by
  have own {stem : List String} (h : stem ∈ stems) : {numberedName stem k} ⊆ outcomeNames k :=
    Set.singleton_subset_iff.mpr ⟨stem, h, rfl⟩
  have apart {stem stem' : List String} (h : stem ∈ stems) (h' : stem' ∈ stems)
      (differ : stem ≠ stem') :
      Disjoint {numberedName stem k} ({numberedName stem' k} : Set String) :=
    Set.disjoint_singleton.mpr fun same => differ (numberedName_injective h h' same).1
  have bit (name : String) : Adds (α := α) {name} (Program.addBinary (some name)) :=
    .addBinary fun n hn => (Option.some.inj hn).symm
  have amount (name : String) :
      Adds (α := α) {name} (Program.addContinuous 0 Scalar.infinity (some name)) :=
    .addContinuous _ _ fun n hn => (Option.some.inj hn).symm
  have add (expr : LinearExpr α) (sense : Sense) (rhs : α) :
      Adds ∅ (do let _ ← Program.constrain expr sense rhs false : ProgramM α Unit) :=
    (Adds.constrain _ _ _ _).bind_left fun _ => .pure _
  rcases outcome_names k with ⟨lambda, lambdaBar, rho, rhoBar⟩
  unfold TailUtility.addOutcome
  rw [lambda, lambdaBar, rho, rhoBar]
  refine ((bit _).bind (fun _ => (bit _).bind (fun _ => (amount _).bind (fun _ =>
    (amount _).bind_left fun _ => ?_) ?_) ?_) ?_).mono ?_
  · exact (add _ _ _).bind_left fun _ => (add _ _ _).bind_left fun _ =>
      (add _ _ _).bind_left fun _ => (add _ _ _).bind_left fun _ =>
      (add _ _ _).bind_left fun _ => (add _ _ _).bind_left fun _ =>
      (add _ _ _).bind_left fun _ => (add _ _ _).bind_left fun _ =>
      (add _ _ _).bind_left fun _ => .pure _
  · exact apart (by decide) (by decide) (by decide)
  · exact Set.disjoint_union_right.mpr ⟨apart (by decide) (by decide) (by decide),
      apart (by decide) (by decide) (by decide)⟩
  · refine Set.disjoint_union_right.mpr ⟨apart (by decide) (by decide) (by decide),
      Set.disjoint_union_right.mpr ⟨?_, ?_⟩⟩ <;> exact apart (by decide) (by decide) (by decide)
  · refine Set.union_subset (own (by decide)) (Set.union_subset (own (by decide))
      (Set.union_subset (own ?_) (own ?_))) <;> decide

theorem adds_buildOver (x : PathVariables α) (alpha : α) (outcomes : List (TailUtility.Outcome α))
    (s : TailUtility.Spread α) : Adds tailNames (TailUtility.buildOver d x alpha outcomes s) := by
  have apart : outcomes.zipIdx.Pairwise fun e e' =>
      Disjoint (outcomeNames e.2) (outcomeNames e'.2) := by
    have numbers : (outcomes.zipIdx.map Prod.snd).Nodup := by
      rw [List.zipIdx_map_snd]
      exact List.nodup_range'
    exact (List.pairwise_map.mp numbers).imp disjoint_outcomeNames
  have all (eta : ℕ) : Adds (⋃ k, outcomeNames k) (outcomes.zipIdx.mapM fun e =>
      TailUtility.addOutcome x (s.high - s.low) (s.gap / 2.0) eta e.2 e.1) :=
    (Adds.mapM (fun e _ => adds_addOutcome x _ _ eta e.2 e.1) apart).mono
      (Set.iUnion₂_subset fun e _ => Set.subset_iUnion outcomeNames e.2)
  unfold TailUtility.buildOver
  split
  · exact (Adds.pure _).mono (Set.empty_subset _)
  · exact Adds.bind (.addContinuous _ _ fun n hn => (Option.some.inj hn).symm)
      (fun eta => (all eta).bind_left fun tail =>
        (Adds.constrain _ _ _ _).bind_left fun _ => .pure _)
      (Set.disjoint_iUnion_right.mpr fun k => startsIn_eta.disjoint (startsIn_outcomeNames k)
        (by decide))

theorem adds_build_tail (x : PathVariables α) (alpha : α) :
    Adds tailNames (TailUtility.build d x alpha) := by
  unfold TailUtility.build
  refine .check (fun _ same => by cases same) (.lift_bind fun outcomes _ => ?_)
  split
  · exact (Adds.throw fun _ same => by cases same).mono (Set.empty_subset _)
  · exact adds_buildOver x alpha _ _

theorem adds_addPaths (f : DiagramFile α) (o : PathVariableOptions α) (z : DecisionVariables) :
    Adds pathNames (f.addPaths d o z) := by
  unfold DiagramFile.addPaths
  refine (adds_build_paths z o).bind_left fun x => ?_
  split
  · refine (Adds.lift_bind fun mass _ => Adds.constrain _ _ _ _).bind_left fun _ => .pure _
  · exact .pure _

theorem adds_addObjective (f : DiagramFile α) (x : PathVariables α) :
    Adds tailNames (f.addObjective d x) := by
  unfold DiagramFile.addObjective
  split
  · rw [map_eq_pure_bind]
    exact (Adds.lift_bind fun e _ => .pure _).mono (Set.empty_subset _)
  · split
    · exact (Adds.throw fun _ same => by cases same).mono (Set.empty_subset _)
    · exact (adds_build_tail x _).map _

/-- A compiled program gives no name twice, and no names but these. -/
theorem adds_program (nodup : d.decision.Nodup) (f : DiagramFile α) (o : PathVariableOptions α) :
    Adds compiledNames (f.program d o) := by
  unfold DiagramFile.program
  refine (adds_build_decisions nodup o.names).bind (fun z => (adds_addPaths f o z).bind
    (fun x => (adds_addObjective f x).bind_left fun _ => .pure _) ?_) ?_
  · exact startsIn_pathNames.disjoint startsIn_tailNames (by decide)
  · exact startsIn_decisionNames.disjoint (startsIn_pathNames.union startsIn_tailNames) (by decide)

end Encoders

/-! ## Compiled programs -/

namespace Program

variable {α : Type}

/-- The program gives names of compiled programs only, and none twice. -/
structure NamedAsCompiled (m : Program α) : Prop where
  distinct : m.Distinct
  given : ∀ v name, m.given? v = some name → name ∈ compiledNames

namespace NamedAsCompiled

variable {m : Program α} (h : m.NamedAsCompiled)

include h

theorem labelled : m.Labelled where
  distinct := h.distinct
  plain v name given := isPlain_of_mem_compiledNames (h.given v name given)

theorem free (w v : ℕ) : ¬ m.Shadows w v := by
  intro shadows
  rcases begins_of_mem_compiledNames (h.given w _ shadows.2.2) with ⟨c, begins, -, other⟩
  have first := begins.first
  rw [String.toList_append] at first
  exact other (Option.some.inj first).symm

theorem isIdentifier {name : String} (mem : name ∈ m.exportNames) : IsIdentifier name := by
  rcases List.mem_map.mp mem with ⟨v, -, rfl⟩
  cases given : m.given? v with
  | some name =>
    rw [exportName_of_given? given]
    rcases begins_of_mem_compiledNames (h.given v name given) with ⟨c, begins, letter, -⟩
    exact begins.isIdentifier letter
  | none =>
    rw [exportName_of_unnamed given]
    have front : Begins 'v' "v" := ⟨rfl, isWord_of_all (by decide)⟩
    exact (front.append (isWord_repr v)).isIdentifier rfl

end NamedAsCompiled

end Program

theorem compileWith_names {α : Type} [Scalar α] {d : Diagram α} (nodup : d.decision.Nodup)
    (f : DiagramFile α) (o : PathVariableOptions α) :
    (∀ name, f.compileWith d o ≠ .error (.duplicateVariable name)) ∧
    ∀ c, f.compileWith d o = .ok c → c.program.NamedAsCompiled := by
  have adds := adds_program nodup f o .empty (fun v w name hv => by cases hv)
    fun v name _ hv => by cases hv
  unfold DiagramFile.compileWith
  unfold Ends at adds
  cases run : (f.program d o).run.run .empty with
  | mk r m =>
    rw [run] at adds
    rcases adds with ⟨distinct, given, known⟩
    cases r with
    | error e =>
      refine ⟨fun name failed => ?_, fun c built => by cases built⟩
      exact known name (congrArg Except.error (Except.error.inj failed))
    | ok b =>
      refine ⟨fun name failed => (by cases failed), fun c built => ?_⟩
      obtain rfl := Except.ok.inj built
      refine ⟨distinct, fun v name hv => ?_⟩
      rcases given v name hv with mem | ⟨w, hw⟩
      · exact mem
      · cases hw

open Numeral in
/-- Compiling never fails for a name that is taken, whatever nodes are called.  In the program, no
two variables go by one name, all names are identifiers, and a solution whose values read back
has the same values after it was written and read. -/
theorem compile_names {d : Diagram Float} (h : d.Attained) (f : DiagramFile Float) :
    (∀ name, f.compile d ≠ .error (.duplicateVariable name)) ∧
    ∀ c, f.compile d = .ok c →
      c.program.exportNames.Nodup ∧
      (∀ name ∈ c.program.exportNames, IsIdentifier name) ∧
      ∀ s : Solution Float, s.values.size = c.program.vars.size →
        (∀ x ∈ s.values, read? (write x).toList = some x) →
        ∃ t, Solution.ofText c.program (Solution.text c.program s) = .ok t ∧
          t.values = s.values := by
  unfold DiagramFile.compile
  cases options : f.pathVariableOptions d with
  | error e => exact ⟨fun name failed => (by cases failed), fun c built => (by cases built)⟩
  | ok o =>
    rcases compileWith_names h.nodup_decision f o with ⟨known, named⟩
    refine ⟨known, fun c built => ?_⟩
    have named := named c built
    refine ⟨named.labelled.nodup_exportNames_iff.mpr named.free, fun name => named.isIdentifier,
      fun s size reads => ?_⟩
    rcases Solution.ofText_text (fun v _ => named.labelled.isPlain_exportName v) legible_float
      (fun v hv => named.labelled.isSome_resolve? hv) size reads with ⟨t, run, values⟩
    refine ⟨t, run, values.trans ?_⟩
    exact (Solution.placed_eq_iff named.labelled size).mpr fun w v shadows =>
      absurd shadows (named.free w v)

/-- Two decisions whose names have one label. -/
def alikeFile : DiagramFile Float where
  schemaVersion := schemaVersion
  description := none
  nodes := [⟨"a b", .decision, [], ["no", "yes"]⟩, ⟨"a_b", .decision, ["a b"], ["no", "yes"]⟩,
    ⟨"gain", .value, ["a b", "a_b"], []⟩]
  probabilities := []
  utilities := [("gain", .array [.array [.scalar 0, .scalar 1], .array [.scalar 2, .scalar 3]])]
  generate := .default
  model := .default

/-- The diagram of these decisions. -/
def alike : Diagram Float := alikeFile.build.toOption.getD (.empty true)

theorem compile_names_alike : alike.Attained ∧ ∃ c, alikeFile.compile alike = .ok c ∧
    c.program.exportNames = ["z0_a_b_0", "z0_a_b_1", "z1_a_b_0_0", "z1_a_b_0_1", "z1_a_b_1_0",
      "z1_a_b_1_1", "x_0_0", "x_0_1", "x_1_0", "x_1_1"] ∧ c.program.exportNames.Nodup ∧
    ∃ t, Solution.ofText c.program (Solution.text c.program ⟨#[1, 0, 0, 1, 1, 0, 0, 1, 0, 0], 1⟩) =
      .ok t ∧ t.values = #[1, 0, 0, 1, 1, 0, 0, 1, 0, 0] := by
  have attained : alike.Attained :=
    DiagramFile.attained_of_build (except_eq_ok_of_isOk _ (by decide +kernel))
  rcases exists_eq_ok_of_any (x := alikeFile.compile alike) (fun c => c.program.exportNames ==
      ["z0_a_b_0", "z0_a_b_1", "z1_a_b_0_0", "z1_a_b_0_1", "z1_a_b_1_0", "z1_a_b_1_1", "x_0_0",
        "x_0_1", "x_1_0", "x_1_1"]) (by decide +kernel) with ⟨c, built, names⟩
  rcases (compile_names attained alikeFile).2 c built with ⟨nodup, -, reads⟩
  have listed := eq_of_beq names
  have size : c.program.vars.size = 10 := by
    have length := congrArg List.length listed
    rwa [Program.exportNames, List.length_map, List.length_range] at length
  exact ⟨attained, c, built, listed, nodup,
    reads ⟨#[1, 0, 0, 1, 1, 0, 0, 1, 0, 0], 1⟩ size.symm (by decide +kernel)⟩

end Influence
