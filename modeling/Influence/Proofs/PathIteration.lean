import Mathlib.Data.List.Forall2
import Influence.Proofs.Paths

/-!
# Iteration over paths

The list of all paths ascends in lexicographic order (`pairwise_lt_all`), and `advance?` goes from
each of its paths to the one right behind it (`after_eq`).  So a position is as good as the number
of paths that lie before it, and this is what taking a path, starting over and going on from a copy
do to it (`Passed`).

Callers may mix these as they like.  A traversal is given by how it takes a path and how it starts
over; two traversals whose positions correspond give the same answers to all that a caller does
(`Matches.answers_eq`).  Thus an iterator over paths answers like an index into a sorted list, and
so does one that counts in machine words, since no coordinate goes past its number of states
(`iteration_listed`).
-/

namespace Influence

/-! ## Traversals -/

/-- How a traversal takes its next path, and how it starts over. -/
structure Traversal (π : Type) where
  next? : π → Option (Path × π)
  restart : π → π

namespace Traversal

/-- What a caller does with a traversal and the copies of it. -/
inductive Action where
  /-- Asks for the next path. -/
  | next
  | restart
  /-- Keeps a copy of the position. -/
  | keep
  /-- Goes on from a copy, if there is one of that number. -/
  | resume (copy : ℕ)

/-- The position of a traversal and the copies that were kept. -/
structure Session (π : Type) where
  position : π
  kept : List π

variable {π ρ : Type}

/-- The session after an action, and the answer if a path was asked for. -/
def act (t : Traversal π) (s : Session π) : Action → Session π × List (Option Path)
  | .next =>
    match t.next? s.position with
    | some (p, position) => ({ s with position }, [some p])
    | none => (s, [none])
  | .restart => ({ s with position := t.restart s.position }, [])
  | .keep => ({ s with kept := s.kept ++ [s.position] }, [])
  | .resume copy => ({ s with position := s.kept.getD copy s.position }, [])

/-- The answers to all that a caller does. -/
def answersFrom (t : Traversal π) : Session π → List Action → List (Option Path)
  | _, [] => []
  | s, a :: actions => (t.act s a).2 ++ t.answersFrom (t.act s a).1 actions

/-- The answers of a traversal that starts at a position. -/
def answers (t : Traversal π) (position : π) (actions : List Action) : List (Option Path) :=
  t.answersFrom ⟨position, []⟩ actions

/-- The positions of two traversals correspond, and stay so. -/
structure Matches (t : Traversal π) (u : Traversal ρ) (R : π → ρ → Prop) : Prop where
  restart : ∀ {a b}, R a b → R (t.restart a) (u.restart b)
  next? : ∀ {a b}, R a b →
    Option.Rel (fun x y => x.1 = y.1 ∧ R x.2 y.2) (t.next? a) (u.next? b)

namespace Matches

variable {t : Traversal π} {u : Traversal ρ} {R : π → ρ → Prop}

/-- Positions and copies correspond. -/
def Related (R : π → ρ → Prop) (s : Session π) (s' : Session ρ) : Prop :=
  R s.position s'.position ∧ List.Forall₂ R s.kept s'.kept

theorem getD_related {as : List π} {bs : List ρ} (h : List.Forall₂ R as bs) {a : π} {b : ρ}
    (default : R a b) (k : ℕ) : R (as.getD k a) (bs.getD k b) := by
  induction h generalizing k with
  | nil => exact default
  | cons head _ ih =>
    cases k with
    | zero => exact head
    | succ k => exact ih k

/-- One action gives the same answer, and sessions that correspond. -/
theorem act (h : Matches t u R) {s : Session π} {s' : Session ρ} (related : Related R s s')
    (a : Action) :
    (t.act s a).2 = (u.act s' a).2 ∧ Related R (t.act s a).1 (u.act s' a).1 := by
  obtain ⟨position, kept⟩ := related
  cases a with
  | next =>
    have step := h.next? position
    unfold Traversal.act
    cases ht : t.next? s.position with
    | none =>
      cases hu : u.next? s'.position with
      | none => exact ⟨rfl, position, kept⟩
      | some y => simp [ht, hu] at step
    | some x =>
      cases hu : u.next? s'.position with
      | none => simp [ht, hu] at step
      | some y =>
        simp only [ht, hu, Option.rel_some_some] at step
        exact ⟨by simp [step.1], step.2, kept⟩
  | restart => exact ⟨rfl, h.restart position, kept⟩
  | keep => exact ⟨rfl, position, List.rel_append kept (.cons position .nil)⟩
  | resume copy => exact ⟨rfl, getD_related kept position copy, kept⟩

/-- From corresponding positions all answers are the same. -/
theorem answers_eq (h : Matches t u R) {a : π} {b : ρ} (start : R a b) (actions : List Action) :
    t.answers a actions = u.answers b actions := by
  suffices run : ∀ {s : Session π} {s' : Session ρ}, Related R s s' →
      t.answersFrom s actions = u.answersFrom s' actions from run ⟨start, .nil⟩
  induction actions with
  | nil => intros; rfl
  | cons action actions ih =>
    intro s s' related
    obtain ⟨same, related⟩ := h.act related action
    rw [answersFrom, answersFrom, same, ih related]

end Matches

/-- The paths of a list from an index on. -/
def listed (paths : List Path) : Traversal ℕ where
  next? k := paths[k]?.map fun p => (p, k + 1)
  restart _ := 0

end Traversal

namespace Coordinate

theorem pairwise_lt_states (c : Coordinate) : c.states.Pairwise (· < ·) := by
  cases c with
  | held state => exact List.pairwise_singleton _ state
  | free count => exact List.pairwise_lt_range

end Coordinate

namespace Paths

/-! ## The order of the list -/

/-- Paths are listed in ascending lexicographic order. -/
theorem pairwise_lt_all (cs : List Coordinate) : (all cs).Pairwise (· < ·) := by
  induction cs with
  | nil => exact List.pairwise_singleton _ []
  | cons c cs ih =>
    rw [all, List.pairwise_flatMap]
    constructor
    · intro s _
      rw [List.pairwise_map]
      exact ih.imp fun h => List.cons_lt_cons_iff.mpr (.inr ⟨rfl, h⟩)
    · apply (Coordinate.pairwise_lt_states c).imp
      intro s t less p hp q hq
      obtain ⟨p, _, rfl⟩ := List.mem_map.mp hp
      obtain ⟨q, _, rfl⟩ := List.mem_map.mp hq
      exact List.cons_lt_cons_iff.mpr (.inl less)

/-- In an ascending list, what stands in front of a path is what is below it. -/
theorem mem_front_iff {front back : List Path} {p q : Path}
    (ascending : (front ++ q :: back).Pairwise (· < ·)) :
    p ∈ front ↔ p ∈ front ++ q :: back ∧ p < q := by
  obtain ⟨-, later, order⟩ := List.pairwise_append.mp ascending
  constructor
  · exact fun hp => ⟨List.mem_append_left _ hp, order p hp q List.mem_cons_self⟩
  · rintro ⟨hp, less⟩
    rcases List.mem_append.mp hp with hp | hp
    · exact hp
    · rcases List.mem_cons.mp hp with rfl | hp
      · exact absurd less (List.lt_irrefl p)
      · exact absurd less (List.lt_asymm (List.rel_of_pairwise_cons later hp))

/-! ## One step -/

theorem any_isEmpty_of_mem {cs : List Coordinate} {p : Path} (h : p ∈ all cs) :
    cs.any Coordinate.isEmpty = false := by
  by_contra empty
  rw [all_eq_nil (by simpa using empty)] at h
  cases h

theorem start_mem_all {cs : List Coordinate} (h : cs.any Coordinate.isEmpty = false) :
    cs.map Coordinate.start ∈ all cs := by
  rw [all_eq_cons h]
  exact List.mem_cons_self

theorem cons_mem_all {c : Coordinate} {cs : List Coordinate} {s : ℕ} {p : Path} :
    s :: p ∈ all (c :: cs) ↔ s ∈ c.states ∧ p ∈ all cs := by
  rw [mem_all, mem_all, List.forall₂_cons]

section Advance

variable {c : Coordinate} {cs : List Coordinate} {s : ℕ} {p q : Path}

theorem after_cons : after (c :: cs) (s :: p) = (after cs p).map (s :: ·) ++
    (c.statesAfter s).flatMap fun s => (all cs).map (s :: ·) :=
  rfl

/-- A coordinate stays where one behind it moves. -/
theorem advance?_behind (h : advance? cs p = some q) :
    advance? (c :: cs) (s :: p) = some (s :: q) := by
  simp only [advance?, h]

/-- A free coordinate moves up to its last state. -/
theorem advance?_free {count : ℕ} (h : advance? cs p = none) :
    advance? (.free count :: cs) (s :: p) =
      if s + 1 < count then some ((s + 1) :: cs.map Coordinate.start) else none := by
  simp only [advance?, h]

theorem advance?_held {state : ℕ} (h : advance? cs p = none) :
    advance? (.held state :: cs) (s :: p) = none := by
  simp only [advance?, h]

end Advance

/-- The step to the next path stays in the list. -/
theorem mem_all_of_advance? {cs : List Coordinate} {p q : Path} (h : p ∈ all cs)
    (step : advance? cs p = some q) : q ∈ all cs := by
  induction cs generalizing p q with
  | nil => cases p <;> cases step
  | cons c cs ih =>
    cases p with
    | nil => cases step
    | cons s p =>
      obtain ⟨hs, hp⟩ := cons_mem_all.mp h
      cases behind : advance? cs p with
      | some r =>
        rw [advance?_behind behind] at step
        obtain rfl := Option.some.inj step
        exact cons_mem_all.mpr ⟨hs, ih hp behind⟩
      | none =>
        cases c with
        | held state =>
          rw [advance?_held behind] at step
          cases step
        | free count =>
          rw [advance?_free behind, Option.ite_none_right_eq_some] at step
          obtain ⟨small, step⟩ := step
          obtain rfl := Option.some.inj step
          exact cons_mem_all.mpr
            ⟨Coordinate.mem_states_free.mpr small, start_mem_all (any_isEmpty_of_mem hp)⟩

/-- What lies behind a path starts with the path that it steps to. -/
theorem after_eq {cs : List Coordinate} {p : Path} (h : p ∈ all cs) :
    after cs p = (advance? cs p).elim [] fun q => q :: after cs q := by
  induction cs generalizing p with
  | nil => cases p <;> rfl
  | cons c cs ih =>
    cases p with
    | nil => rfl
    | cons s p =>
      obtain ⟨hs, hp⟩ := cons_mem_all.mp h
      rw [after_cons, ih hp]
      cases behind : advance? cs p with
      | some q =>
        rw [advance?_behind behind, Option.elim_some, Option.elim_some, after_cons]
        rfl
      | none =>
        cases c with
        | held state =>
          rw [advance?_held behind]
          rfl
        | free count =>
          rw [advance?_free behind]
          by_cases small : s + 1 < count
          · have states : (Coordinate.free count).statesAfter s =
                (s + 1) :: (Coordinate.free count).statesAfter (s + 1) := by
              rw [Coordinate.statesAfter, show count - (s + 1) = count - (s + 1 + 1) + 1 by omega,
                List.range'_succ]
              rfl
            rw [if_pos small, Option.elim_some, states, List.flatMap_cons, after_cons,
              all_eq_cons (any_isEmpty_of_mem hp)]
            rfl
          · have last : (Coordinate.free count).statesAfter s = [] := by
              rw [Coordinate.statesAfter, show count - (s + 1) = 0 by omega, List.range'_zero]
            rw [if_neg small, last]
            rfl

/-! ## Positions -/

/-- So many paths of the list lie before the position. -/
structure Passed (cs : List Coordinate) (ps : Paths) (k : ℕ) : Prop where
  coordinates : ps.coordinates = cs
  upcoming : ∀ p, ps.upcoming = some p → p ∈ all cs
  toList : ps.toList = (all cs).drop k

theorem passed_ofCoordinates (cs : List Coordinate) : Passed cs (ofCoordinates cs) 0 where
  coordinates := rfl
  upcoming := by
    intro p hp
    rw [ofCoordinates, first?] at hp
    split at hp
    · cases hp
    · obtain rfl := Option.some.inj hp
      apply start_mem_all
      simp_all
  toList := toList_ofCoordinates cs

/-- Starting over leads to the first path from wherever it happens. -/
theorem Passed.restart {cs : List Coordinate} {ps : Paths} {k : ℕ} (h : Passed cs ps k) :
    Passed cs ps.restart 0 := by
  rw [Paths.restart, h.coordinates]
  exact passed_ofCoordinates cs

/-- Taking a path gives the one of that number, and passes it. -/
theorem Passed.next? {cs : List Coordinate} {ps : Paths} {k : ℕ} (h : Passed cs ps k) :
    Option.Rel (fun x y => x.1 = y.1 ∧ Passed cs x.2 y.2) ps.next?
      ((Traversal.listed (all cs)).next? k) := by
  have rest := h.toList
  cases upcoming : ps.upcoming with
  | none =>
    have done : (all cs)[k]? = none := by
      rw [Paths.toList, upcoming] at rest
      simpa using rest.symm
    simp [Paths.next?, Traversal.listed, upcoming, done]
  | some p =>
    have hp := h.upcoming p upcoming
    rw [Paths.toList, upcoming, h.coordinates] at rest
    have head : (all cs)[k]? = some p := by
      rw [← List.head?_drop, ← rest, List.head?_cons]
    have tail : after cs p = (all cs).drop (k + 1) := by
      rw [← List.tail_drop, ← rest, List.tail_cons]
    simp only [Paths.next?, Traversal.listed, upcoming, head, Option.map_some,
      Option.rel_some_some, true_and]
    constructor
    · exact h.coordinates
    · intro q step
      rw [h.coordinates] at step
      exact mem_all_of_advance? hp step
    · rw [← tail, after_eq hp, Paths.toList, h.coordinates]
      cases advance? cs p <;> rfl

/-- Taking some paths from a position gives the ones that come next in the list. -/
theorem Passed.take {cs : List Coordinate} {ps : Paths} {j : ℕ} (h : Passed cs ps j) (k : ℕ) :
    (ps.take k).1 = ((all cs).drop j).take k := by
  induction k generalizing ps j with
  | zero => rfl
  | succ k ih =>
    have step := h.next?
    have listed : (Traversal.listed (all cs)).next? j = (all cs)[j]?.map fun p => (p, j + 1) := rfl
    rw [listed] at step
    cases ahead : (all cs)[j]? with
    | none =>
      cases taken : ps.next? with
      | some next => simp [taken, ahead] at step
      | none =>
        rw [Paths.take, taken, List.drop_eq_nil_of_le (List.getElem?_eq_none_iff.mp ahead),
          List.take_nil]
    | some p =>
      obtain ⟨inside, here⟩ := List.getElem?_eq_some_iff.mp ahead
      cases taken : ps.next? with
      | none => simp [taken, ahead] at step
      | some next =>
        rw [ahead, taken, Option.map_some, Option.rel_some_some] at step
        obtain ⟨same, passed⟩ := step
        rw [Paths.take, taken, List.drop_eq_getElem_cons inside, List.take_succ_cons, here,
          ← ih passed]
        exact congrArg (· :: _) same

/-- As many paths as asked for from the start of the list. -/
theorem take_ofStates (states : List ℕ) (n : ℕ) :
    ((ofStates states).take n).1 = (ofStates states).toList.take n := by
  rw [ofStates, (passed_ofCoordinates _).take, toList_ofCoordinates, List.drop_zero]

/-- The iterator over paths. -/
def traversal : Traversal Paths := ⟨Paths.next?, Paths.restart⟩

theorem matches_traversal (cs : List Coordinate) :
    traversal.Matches (.listed (all cs)) (Passed cs) where
  restart := Passed.restart
  next? := Passed.next?

/-! ## Machine words -/

/-- The step to the next path where one more than the greatest word is zero. -/
def advanceWord? : List Coordinate → Path → Option Path
  | c :: cs, s :: p =>
    match advanceWord? cs p with
    | some p => some (s :: p)
    | none =>
      match c with
      | .free count =>
        if (s + 1) % Word.count64 < count then
          some ((s + 1) % Word.count64 :: cs.map Coordinate.start)
        else none
      | .held _ => none
  | _, _ => none

/-- The iterator over paths on machine words. -/
def wordTraversal : Traversal Paths where
  next? ps := ps.upcoming.map fun p => (p, { ps with upcoming := advanceWord? ps.coordinates p })
  restart := Paths.restart

/-- Numbers of states that are words. -/
def AreWords (cs : List Coordinate) : Prop :=
  ∀ count, Coordinate.free count ∈ cs → count < Word.count64

/-- No coordinate overflows: it stays below its number of states. -/
theorem advanceWord?_eq {cs : List Coordinate} {p : Path} (words : AreWords cs)
    (h : p ∈ all cs) : advanceWord? cs p = advance? cs p := by
  induction cs generalizing p with
  | nil => cases p <;> rfl
  | cons c cs ih =>
    cases p with
    | nil => rfl
    | cons s p =>
      obtain ⟨hs, hp⟩ := cons_mem_all.mp h
      have behind := ih (fun count mem => words count (List.mem_cons_of_mem c mem)) hp
      cases c with
      | held state =>
        cases ahead : advance? cs p <;> simp only [advanceWord?, advance?, behind, ahead]
      | free count =>
        have fits : (s + 1) % Word.count64 = s + 1 := by
          have below := Coordinate.mem_states_free.mp hs
          have word := words count List.mem_cons_self
          exact Nat.mod_eq_of_lt (by omega)
        cases ahead : advance? cs p <;> simp only [advanceWord?, advance?, behind, ahead, fits]

theorem matches_wordTraversal {cs : List Coordinate} (words : AreWords cs) :
    wordTraversal.Matches (.listed (all cs)) (Passed cs) where
  restart := Passed.restart
  next? := by
    intro ps k h
    have same : wordTraversal.next? ps = ps.next? := by
      cases upcoming : ps.upcoming with
      | none => simp [wordTraversal, Paths.next?, upcoming]
      | some p =>
        have step := advanceWord?_eq words (h.upcoming p upcoming)
        simp [wordTraversal, Paths.next?, upcoming, h.coordinates, step]
    rw [same]
    exact h.next?

/-! ## Forced states -/

section Forced

variable {α : Type} {states : List ℕ} {fixed : FixedPath}

theorem withFixed_eq_error_iff (ordered : fixed.Ordered) :
    (∃ fault, (withFixed states fixed : Except (DiagramError α) Paths) =
        .error (.invalidFixedPath fault)) ↔
      ∃ i s, fixed.get? i = some s ∧ (states.length ≤ i ∨ states.getD i 0 ≤ s) := by
  have possible : fixed.fault? states = none ↔ _ := ordered.fault?_eq_none_iff
  unfold withFixed
  cases faulty : fixed.fault? states with
  | none =>
    refine iff_of_false (by simp) ?_
    rintro ⟨i, s, forced, outside⟩
    have inside := possible.mp faulty i s forced
    omega
  | some fault =>
    refine iff_of_true ⟨fault, rfl⟩ ?_
    by_contra inside
    have valid : fixed.fault? states = none := by
      apply possible.mpr
      intro i s forced
      by_contra outside
      exact inside ⟨i, s, forced, by omega⟩
    rw [faulty] at valid
    cases valid

theorem areWords_ofStates (words : ∀ n ∈ states, n < Word.count64) :
    AreWords (Coordinate.ofStates states fixed) := by
  intro count mem
  obtain ⟨⟨n, i⟩, entry, coordinate⟩ := List.mem_map.mp mem
  dsimp only at coordinate
  split at coordinate
  · cases coordinate
  · obtain rfl := Coordinate.free.inj coordinate
    exact words n (List.fst_mem_of_mem_zipIdx entry)

/-- An iterator over paths is refused exactly where a forced state is none of its coordinate.
Where it is not, whatever is done with it and its copies, it answers like an index into the
ascending list of the paths that have the forced states.  Counting in words makes no difference. -/
theorem iteration_listed (states : List ℕ) {fixed : FixedPath} (ordered : fixed.Ordered) :
    ((∃ fault, (withFixed states fixed : Except (DiagramError α) Paths) =
        .error (.invalidFixedPath fault)) ↔
      ∃ i s, fixed.get? i = some s ∧ (states.length ≤ i ∨ states.getD i 0 ≤ s)) ∧
    (withFixed states .empty : Except (DiagramError α) Paths) = .ok (ofStates states) ∧
    ∀ ps, (withFixed states fixed : Except (DiagramError α) Paths) = .ok ps →
      ∃ paths : List Path, paths.Pairwise (· < ·) ∧
        (∀ p, p ∈ paths ↔ p.length = states.length ∧
          (∀ i < states.length, p.getD i 0 < states.getD i 0) ∧
          ∀ i s, fixed.get? i = some s → p.getD i 0 = s) ∧
        (∀ actions, traversal.answers ps actions = (Traversal.listed paths).answers 0 actions) ∧
        ((∀ n ∈ states, n < Word.count64) → ∀ actions,
          wordTraversal.answers ps actions = (Traversal.listed paths).answers 0 actions) := by
  refine ⟨withFixed_eq_error_iff ordered, rfl, fun ps run => ?_⟩
  obtain ⟨valid, rfl⟩ := withFixed_eq_ok_iff.mp run
  have start := passed_ofCoordinates (Coordinate.ofStates states fixed)
  refine ⟨all (Coordinate.ofStates states fixed), pairwise_lt_all _,
    fun p => mem_all_ofStates_iff valid, fun actions => ?_, fun words actions => ?_⟩
  · exact (matches_traversal _).answers_eq start actions
  · exact (matches_wordTraversal (areWords_ofStates words)).answers_eq start actions

/-- The second of three coordinates is held, and a copy goes on while the iterator starts over. -/
theorem iteration_listed_held : (FixedPath.ofPairs [(1, 2)]).Ordered ∧
    ∃ ps, (withFixed [2, 3, 2] (.ofPairs [(1, 2)]) : Except (DiagramError Unit) Paths) = .ok ps ∧
      traversal.answers ps [.next, .next, .keep, .next, .restart, .next, .resume 0, .next, .next,
          .next] =
        [some [0, 2, 0], some [0, 2, 1], some [1, 2, 0], some [0, 2, 0], some [1, 2, 0],
          some [1, 2, 1], none] ∧
      ∃ paths : List Path, paths.Pairwise (· < ·) ∧ [1, 2, 1] ∈ paths ∧ [1, 1, 1] ∉ paths ∧
        ∀ actions, traversal.answers ps actions = (Traversal.listed paths).answers 0 actions := by
  have ordered := FixedPath.ordered_ofPairs [(1, 2)]
  refine ⟨ordered, _, rfl, by decide, ?_⟩
  obtain ⟨paths, ascending, member, answers, -⟩ :=
    (iteration_listed (α := Unit) [2, 3, 2] ordered).2.2 _ rfl
  refine ⟨paths, ascending, ?_, ?_, answers⟩
  · rw [member, ← mem_all_ofStates_iff (by decide)]
    decide
  · rw [member, ← mem_all_ofStates_iff (by decide)]
    decide

end Forced

end Paths

end Influence
