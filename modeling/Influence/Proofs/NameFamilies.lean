import Influence.Encoding.PathVariables
import Influence.Proofs.GivenNames

/-!
# Families of names

The encoders name a decision variable after its node, the states that are observed and its own, a
path variable after its path, and the variables of the tail after their outcomes.  Names of nodes
are cut down to letters, digits and underscores, so labels may agree; what keeps variables apart are
the number in front of the first underscore and the numbers behind the label (`disjoint_nodeNames`,
`variableName_injective`).

Every family starts with letters of its own (`StartsIn`).  So families are disjoint, and as none
starts with a `v`, no name is that of a variable without one.
-/

namespace Influence

open Text

/-! ## Families of names -/

/-- The names of a node's decision variables at an information state. -/
def groupNames (node : ℕ) (name : String) (q : List ℕ) : Set String :=
  Set.range (DecisionVariables.variableName node name q)

/-- The names of a node's decision variables. -/
def nodeNames (node : ℕ) (name : String) : Set String := ⋃ q, groupNames node name q

/-- The names of decision variables. -/
def decisionNames : Set String := ⋃ node, ⋃ name, nodeNames node name

/-- The names of path variables. -/
def pathNames : Set String := Set.range PathVariables.variableName

/-- A word, or two, with a number behind it. -/
def numberedName (stem : List String) (k : ℕ) : String := joined "_" (stem ++ [k.repr])

/-- The words that name the variables of an outcome of the tail. -/
def stems : List (List String) := [["lambda"], ["lambda", "bar"], ["rho"], ["rho", "bar"]]

/-- The names of the variables of an outcome of the tail. -/
def outcomeNames (k : ℕ) : Set String := {name | ∃ stem ∈ stems, numberedName stem k = name}

/-- The names of the variables of the tail. -/
def tailNames : Set String := {"eta"} ∪ ⋃ k, outcomeNames k

theorem variableName_eq (node : ℕ) (name : String) (q : List ℕ) (s : ℕ) :
    DecisionVariables.variableName node name q s =
      "z" ++ node.repr ++ "_" ++ DecisionVariables.label name ++ "_" ++
        joined "_" ((q ++ [s]).map Nat.repr) :=
  joined_cons _ (by simp)

/-- A node's decision variables have different names. -/
theorem variableName_injective {node : ℕ} {name : String} {q q' : List ℕ} {s s' : ℕ}
    (h : DecisionVariables.variableName node name q s =
      DecisionVariables.variableName node name q' s') : q = q' ∧ s = s' := by
  rw [variableName_eq, variableName_eq, String.append_right_inj] at h
  have same : q ++ [s] = q' ++ [s'] := joined_repr_injective h
  rwa [← List.concat_eq_append, ← List.concat_eq_append, List.concat_inj] at same

theorem parts_variableName (node : ℕ) (name : String) (q : List ℕ) (s : ℕ) :
    (parts (DecisionVariables.variableName node name q s).toList).head? =
      some ('z' :: node.repr.toList) := by
  have first : IsPart ('z' :: node.repr.toList) := by
    refine ⟨List.cons_ne_nil _ _, fun mem => ?_⟩
    rcases List.mem_cons.mp mem with other | mem
    · cases other
    · exact (isPart_repr node).2 mem
  have split : (DecisionVariables.variableName node name q s).toList =
      ('z' :: node.repr.toList) ++ '_' :: (DecisionVariables.label name ++ "_" ++
        joined "_" ((q ++ [s]).map Nat.repr)).toList := by
    simp only [variableName_eq, String.toList_append, List.append_assoc]
    rfl
  rw [split, parts_append first, List.head?_cons]

theorem disjoint_groupNames {node : ℕ} {name : String} {q q' : List ℕ} (h : q ≠ q') :
    Disjoint (groupNames node name q) (groupNames node name q') := by
  refine Set.disjoint_left.mpr ?_
  rintro _ ⟨s, rfl⟩ ⟨s', same⟩
  exact h (variableName_injective same.symm).1

/-- The number in front keeps the variables of different nodes apart. -/
theorem disjoint_nodeNames {node node' : ℕ} (h : node ≠ node') (name name' : String) :
    Disjoint (nodeNames node name) (nodeNames node' name') := by
  refine Set.disjoint_left.mpr fun n mem mem' => ?_
  rcases Set.mem_iUnion.mp mem with ⟨q, s, rfl⟩
  rcases Set.mem_iUnion.mp mem' with ⟨q', s', same⟩
  have first := parts_variableName node' name' q' s'
  rw [same, parts_variableName, Option.some.injEq, List.cons_eq_cons] at first
  exact h (repr_toList_injective first.2)

theorem isPart_of_mem_stems {stem : List String} (h : stem ∈ stems) :
    ∀ t ∈ stem, IsPart t.toList := by
  revert stem
  unfold IsPart
  decide

theorem numberedName_injective {stem stem' : List String} (h : stem ∈ stems) (h' : stem' ∈ stems)
    {k k' : ℕ} (same : numberedName stem k = numberedName stem' k') : stem = stem' ∧ k = k' := by
  have read {stem : List String} (h : stem ∈ stems) (k : ℕ) :
      parts (numberedName stem k).toList = (stem.map String.toList).concat k.repr.toList := by
    rw [numberedName, parts_joined, List.map_append, List.concat_eq_append]
    · rfl
    · intro t ht
      rcases List.mem_append.mp ht with ht | ht
      · exact isPart_of_mem_stems h t ht
      · rw [List.mem_singleton.mp ht]
        exact isPart_repr k
  have equal := read h k
  rw [same, read h' k', List.concat_inj] at equal
  have words := List.map_injective_iff.mpr (fun _ _ => String.toList_injective) equal.1
  exact ⟨words.symm, (repr_toList_injective equal.2).symm⟩

theorem disjoint_outcomeNames {k k' : ℕ} (h : k ≠ k') :
    Disjoint (outcomeNames k) (outcomeNames k') := by
  refine Set.disjoint_left.mpr ?_
  rintro _ ⟨stem, hs, rfl⟩ ⟨stem', hs', same⟩
  exact h (numberedName_injective hs' hs same).2.symm

/-! ## Identifiers -/

/-- Letters, digits and underscores. -/
def IsWord (name : String) : Prop := ∀ c ∈ name.toList, c.isAlphanum = true ∨ c = '_'

/-- A letter, then letters, digits and underscores. -/
structure IsIdentifier (name : String) : Prop where
  letter : ∃ c cs, name.toList = c :: cs ∧ c.isAlpha = true
  word : IsWord name

theorem isWord_of_all {name : String}
    (h : (name.toList.all fun c => c.isAlphanum || c == '_') = true) : IsWord name := by
  intro c hc
  have solid := List.all_eq_true.mp h c hc
  rwa [Bool.or_eq_true, beq_iff_eq] at solid

theorem IsWord.append {a b : String} (ha : IsWord a) (hb : IsWord b) : IsWord (a ++ b) := by
  intro c hc
  rw [String.toList_append] at hc
  rcases List.mem_append.mp hc with hc | hc
  · exact ha c hc
  · exact hb c hc

theorem isWord_repr (n : ℕ) : IsWord n.repr := by
  intro c hc
  refine .inl ?_
  rw [Char.isAlphanum, isDigit_of_mem_repr hc, Bool.or_true]

theorem isWord_joined {ts : List String} (h : ∀ t ∈ ts, IsWord t) : IsWord (joined "_" ts) := by
  induction ts with
  | nil => intro c hc; cases hc
  | cons t ts ih =>
    rcases List.forall_mem_cons.mp h with ⟨first, rest⟩
    by_cases last : ts = []
    · subst last
      exact first
    · rw [joined_cons t last]
      exact (first.append fun c hc => .inr (by simpa using hc)).append (ih rest)

theorem isWord_joined_repr (ns : List ℕ) : IsWord (joined "_" (ns.map Nat.repr)) := by
  refine isWord_joined fun t ht => ?_
  rcases List.mem_map.mp ht with ⟨n, -, rfl⟩
  exact isWord_repr n

/-- Whatever a node is called, its label is a word. -/
theorem isWord_label (name : String) : IsWord (DecisionVariables.label name) := by
  intro c hc
  rw [DecisionVariables.label, String.toList_map] at hc
  rcases List.mem_map.mp hc with ⟨b, -, rfl⟩
  split
  case isTrue alphanumeric => exact .inl alphanumeric
  case isFalse => exact .inr rfl

/-- A word that starts with the letter. -/
structure Begins (c : Char) (name : String) : Prop where
  first : name.toList.head? = some c
  word : IsWord name

namespace Begins

variable {c c' : Char} {a b name : String}

theorem append (ha : Begins c a) (hb : IsWord b) : Begins c (a ++ b) where
  first := by
    rw [String.toList_append, List.head?_append, ha.first, Option.some_or]
  word := ha.word.append hb

theorem isIdentifier (h : Begins c name) (letter : c.isAlpha = true) : IsIdentifier name := by
  rcases List.head?_eq_some_iff.mp h.first with ⟨cs, letters⟩
  exact ⟨⟨c, cs, letters, letter⟩, h.word⟩

theorem unique (h : Begins c name) (h' : Begins c' name) : c = c' :=
  Option.some.inj (h.first.symm.trans h'.first)

end Begins

theorem isWord_underscore : IsWord "_" := isWord_of_all (by decide)

/-! ## First letters -/

/-- The names are words that start with one of the letters. -/
def StartsIn (cs : List Char) (S : Set String) : Prop := ∀ name ∈ S, ∃ c ∈ cs, Begins c name

namespace StartsIn

variable {cs ds : List Char} {S T : Set String}

theorem union (hS : StartsIn cs S) (hT : StartsIn ds T) : StartsIn (cs ++ ds) (S ∪ T) := by
  rintro name (mem | mem)
  · rcases hS name mem with ⟨c, hc, begins⟩
    exact ⟨c, List.mem_append_left _ hc, begins⟩
  · rcases hT name mem with ⟨c, hc, begins⟩
    exact ⟨c, List.mem_append_right _ hc, begins⟩

/-- Families that start with different letters are disjoint. -/
theorem disjoint (hS : StartsIn cs S) (hT : StartsIn ds T)
    (apart : (cs.all fun c => !ds.contains c) = true) : Disjoint S T := by
  refine Set.disjoint_left.mpr fun name mem mem' => ?_
  rcases hS name mem with ⟨c, hc, begins⟩
  rcases hT name mem' with ⟨c', hc', begins'⟩
  obtain rfl := begins.unique begins'
  have other := List.all_eq_true.mp apart c hc
  rw [List.contains_iff_mem.mpr hc'] at other
  cases other

end StartsIn

theorem startsIn_decisionNames : StartsIn ['z'] decisionNames := by
  intro name mem
  rcases Set.mem_iUnion.mp mem with ⟨node, mem⟩
  rcases Set.mem_iUnion.mp mem with ⟨label, mem⟩
  rcases Set.mem_iUnion.mp mem with ⟨q, s, rfl⟩
  have letter : Begins 'z' "z" := ⟨rfl, isWord_of_all (by decide)⟩
  refine ⟨'z', List.mem_cons_self, ?_⟩
  rw [variableName_eq]
  exact (((letter.append (isWord_repr node)).append isWord_underscore).append
    (isWord_label label)).append isWord_underscore |>.append (isWord_joined_repr _)

theorem startsIn_pathNames : StartsIn ['x'] pathNames := by
  rintro _ ⟨p, rfl⟩
  have front : Begins 'x' "x_" := ⟨rfl, isWord_of_all (by decide)⟩
  exact ⟨'x', List.mem_cons_self, front.append (isWord_joined_repr p)⟩

theorem startsIn_eta : StartsIn ['e'] {"eta"} := by
  rintro _ rfl
  exact ⟨'e', List.mem_cons_self, rfl, isWord_of_all (by decide)⟩

theorem begins_of_mem_stems {stem : List String} (h : stem ∈ stems) :
    ∃ t ts, stem = t :: ts ∧ (∃ c ∈ ['l', 'r'], Begins c t) ∧ ∀ u ∈ ts, IsWord u := by
  have words : ∀ stem ∈ stems, ∀ t ∈ stem,
      (t.toList.all fun c => c.isAlphanum || c == '_') = true := by decide
  have letters : ∀ stem ∈ stems, ∃ t ts, stem = t :: ts ∧
      ∃ c ∈ ['l', 'r'], t.toList.head? = some c := by
    simp only [stems, List.forall_mem_cons, List.not_mem_nil]
    refine ⟨⟨_, _, rfl, 'l', ?_⟩, ⟨_, _, rfl, 'l', ?_⟩, ⟨_, _, rfl, 'r', ?_⟩,
      ⟨_, _, rfl, 'r', ?_⟩, fun _ no => no.elim⟩ <;> decide
  rcases letters stem h with ⟨t, ts, rfl, c, hc, first⟩
  rcases List.forall_mem_cons.mp (words _ h) with ⟨own, others⟩
  exact ⟨t, ts, rfl, ⟨c, hc, first, isWord_of_all own⟩, fun u hu => isWord_of_all (others u hu)⟩

theorem startsIn_outcomeNames (k : ℕ) : StartsIn ['l', 'r'] (outcomeNames k) := by
  rintro _ ⟨stem, hs, rfl⟩
  rcases begins_of_mem_stems hs with ⟨t, ts, rfl, ⟨c, hc, first⟩, others⟩
  refine ⟨c, hc, ?_⟩
  rw [numberedName, List.cons_append, joined_cons t (by simp)]
  refine (first.append isWord_underscore).append (isWord_joined fun u hu => ?_)
  rcases List.mem_append.mp hu with hu | hu
  · exact others u hu
  · rw [List.mem_singleton.mp hu]
    exact isWord_repr k

theorem startsIn_tailNames : StartsIn ['e', 'l', 'r'] tailNames := by
  refine startsIn_eta.union fun name mem => ?_
  rcases Set.mem_iUnion.mp mem with ⟨k, mem⟩
  exact startsIn_outcomeNames k name mem

/-- The names in compiled programs. -/
def compiledNames : Set String := decisionNames ∪ (pathNames ∪ tailNames)

theorem startsIn_compiledNames : StartsIn ['z', 'x', 'e', 'l', 'r'] compiledNames :=
  startsIn_decisionNames.union (startsIn_pathNames.union startsIn_tailNames)

theorem begins_of_mem_compiledNames {name : String} (h : name ∈ compiledNames) :
    ∃ c, Begins c name ∧ c.isAlpha = true ∧ c ≠ 'v' := by
  have letters : (['z', 'x', 'e', 'l', 'r'].all fun c => c.isAlpha && c != 'v') = true := by
    decide
  rcases startsIn_compiledNames name h with ⟨c, hc, first⟩
  have letter := List.all_eq_true.mp letters c hc
  rw [Bool.and_eq_true, bne_iff_ne] at letter
  exact ⟨c, first, letter⟩

/-! ## Names in files -/

theorem isBlank_of_isAlpha {c : Char} (h : c.isAlpha = true) : isBlank c = false := by
  have bounds : 65 ≤ c.toNat ∧ c.toNat ≤ 122 := by
    rcases Bool.or_eq_true_iff.mp h with upper | lower
    · have range : 65 ≤ c.toNat ∧ c.toNat ≤ 90 := of_decide_eq_true upper
      omega
    · have range : 97 ≤ c.toNat ∧ c.toNat ≤ 122 :=
        (Bool.and_eq_true_iff.mp lower).imp of_decide_eq_true of_decide_eq_true
      omega
  simp only [isBlank, Bool.or_eq_false_iff, Bool.and_eq_false_iff, decide_eq_false_iff_not,
    beq_eq_false_iff_ne]
  omega

theorem isBlank_of_isWord {name : String} (h : IsWord name) :
    ∀ c ∈ name.toList, isBlank c = false := by
  intro c hc
  rcases h c hc with alphanumeric | rfl
  · rcases Bool.or_eq_true_iff.mp alphanumeric with letter | digit
    · exact isBlank_of_isAlpha letter
    · exact isBlank_of_isDigit digit
  · rfl

theorem IsIdentifier.isField {name : String} (h : IsIdentifier name) : IsField name.toList where
  nonempty := by
    obtain ⟨c, cs, letters, -⟩ := h.letter
    rw [letters]
    exact List.cons_ne_nil c cs
  solid := isBlank_of_isWord h.word

theorem isPlain_of_mem_compiledNames {name : String} (h : name ∈ compiledNames) :
    IsPlain name := by
  rcases begins_of_mem_compiledNames h with ⟨c, begins, letter, -⟩
  refine ⟨⟨fun empty => ?_, isBlank_of_isWord begins.word⟩, fun comment => ?_⟩
  · have first := begins.first
    rw [empty] at first
    cases first
  · rw [begins.first] at comment
    obtain rfl := Option.some.inj comment
    cases letter

end Influence
