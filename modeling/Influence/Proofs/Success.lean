import Mathlib.Data.List.Forall2
import Influence.Program.Error

/-!
# Successful runs

`Succeeds x s b s'` says that a stateful action that may fail, started in `s`, gives `b`
and ends in `s'`.  A run of a sequence is a run of its parts (`succeeds_bind`), and the
lemmas on `mapM`, `filterMapM` and on computations without state take a successful run of a
whole apart in the same way.

An action that fails keeps what it did before.  `Fails x s e s'` says that the action, started in
`s`, fails with `e` and ends in `s'`; a sequence fails where one of its parts does (`fails_bind`).
`Ends x s Q` speaks of the result and the last state of either outcome, and `Keeps P x` says that a
property of states survives the action, whether it succeeds or fails.
-/

namespace Influence

/-! ## Computations without state -/

section Except

variable {ε ε' β γ : Type}

theorem except_bind_eq_ok {x : Except ε β} {f : β → Except ε γ} {c : γ} :
    (x >>= f) = .ok c ↔ ∃ b, x = .ok b ∧ f b = .ok c := by
  cases x <;> simp [bind, Except.bind]

theorem except_pure_eq_ok {b c : β} : (pure b : Except ε β) = .ok c ↔ b = c := by
  simp [pure, Except.pure]

theorem except_bind_eq_error {x : Except ε β} {f : β → Except ε γ} {e : ε} :
    (x >>= f) = .error e ↔ x = .error e ∨ ∃ b, x = .ok b ∧ f b = .error e := by
  cases x <;> simp [bind, Except.bind]

/-- What is done with the result of a computation does not make it fail. -/
theorem except_map_eq_error {x : Except ε β} {g : β → γ} {e : ε} :
    (x >>= fun b => pure (g b)) = .error e ↔ x = .error e := by
  cases x <;> simp [bind, Except.bind, pure, Except.pure]

theorem except_mapM_nil {f : β → Except ε γ} {cs : List γ} :
    [].mapM f = .ok cs ↔ cs = [] := by
  rw [List.mapM_nil, except_pure_eq_ok, eq_comm]

theorem except_mapM_cons {f : β → Except ε γ} {b : β} {bs : List β} {cs : List γ} :
    (b :: bs).mapM f = .ok cs ↔
      ∃ c rest, f b = .ok c ∧ bs.mapM f = .ok rest ∧ cs = c :: rest := by
  simp only [List.mapM_cons, except_bind_eq_ok, except_pure_eq_ok]
  exact ⟨fun ⟨c, hc, rest, hrest, h⟩ => ⟨c, rest, hc, hrest, h.symm⟩,
    fun ⟨c, rest, hc, hrest, h⟩ => ⟨c, hc, rest, hrest, h.symm⟩⟩

/-- A traversal succeeds when every step does, with the results in order. -/
theorem except_mapM_eq_ok_iff {f : β → Except ε γ} {bs : List β} {cs : List γ} :
    bs.mapM f = .ok cs ↔ List.Forall₂ (fun b c => f b = .ok c) bs cs := by
  induction bs generalizing cs with
  | nil => rw [except_mapM_nil, List.forall₂_nil_left_iff]
  | cons b bs ih =>
    rw [except_mapM_cons, List.forall₂_cons_left_iff]
    simp only [ih]

theorem exists_of_mem_except_mapM {f : β → Except ε γ} {bs : List β} {cs : List γ}
    (h : bs.mapM f = .ok cs) {c : γ} (hc : c ∈ cs) : ∃ b ∈ bs, f b = .ok c := by
  induction bs generalizing cs with
  | nil =>
    rw [except_mapM_nil.mp h] at hc
    cases hc
  | cons b bs ih =>
    obtain ⟨c', rest, hb, hrest, rfl⟩ := except_mapM_cons.mp h
    rcases List.mem_cons.mp hc with rfl | hc
    · exact ⟨b, List.mem_cons_self, hb⟩
    · obtain ⟨a, ha, h⟩ := ih hrest hc
      exact ⟨a, List.mem_cons_of_mem _ ha, h⟩

theorem except_eq_ok_of_mem_mapM {f : β → Except ε γ} {bs : List β} {cs : List γ}
    (h : bs.mapM f = .ok cs) {b : β} (hb : b ∈ bs) : ∃ c ∈ cs, f b = .ok c := by
  induction bs generalizing cs with
  | nil => cases hb
  | cons b' bs ih =>
    obtain ⟨c, rest, hc, hrest, rfl⟩ := except_mapM_cons.mp h
    rcases List.mem_cons.mp hb with rfl | hb
    · exact ⟨c, List.mem_cons_self, hc⟩
    · obtain ⟨a, ha, h⟩ := ih hrest hb
      exact ⟨a, List.mem_cons_of_mem _ ha, h⟩

/-- A traversal whose steps all succeed is the list of their results. -/
theorem except_mapM_eq_ok_map {f : β → Except ε γ} {g : β → γ} {bs : List β}
    (h : ∀ b ∈ bs, f b = .ok (g b)) : bs.mapM f = .ok (bs.map g) := by
  rw [except_mapM_eq_ok_iff, List.forall₂_map_right_iff, List.forall₂_same]
  exact h

/-- A traversal whose steps all give something gives something. -/
theorem exists_except_mapM {f : β → Except ε γ} {bs : List β} (h : ∀ b ∈ bs, ∃ c, f b = .ok c) :
    ∃ cs, bs.mapM f = .ok cs := by
  induction bs with
  | nil => exact ⟨[], rfl⟩
  | cons b bs ih =>
    rcases h b List.mem_cons_self with ⟨c, hc⟩
    rcases ih fun b' hb' => h b' (List.mem_cons_of_mem _ hb') with ⟨cs, hcs⟩
    exact ⟨c :: cs, except_mapM_cons.mpr ⟨c, cs, hc, hcs, rfl⟩⟩

/-- A traversal fails at the first element that it fails at. -/
theorem except_mapM_eq_error_iff {f : β → Except ε γ} {bs : List β} {e : ε} :
    bs.mapM f = .error e ↔
      ∃ front b back, bs = front ++ b :: back ∧ (∀ a ∈ front, ∃ c, f a = .ok c) ∧
        f b = .error e := by
  induction bs with
  | nil =>
    constructor
    · intro h
      cases h
    · rintro ⟨front, b, back, split, -⟩
      cases front <;> cases split
  | cons b bs ih =>
    rw [List.mapM_cons, except_bind_eq_error]
    constructor
    · rintro (failed | ⟨c, hc, rest⟩)
      · exact ⟨[], b, bs, rfl, nofun, failed⟩
      · rcases ih.mp (except_map_eq_error.mp rest) with ⟨front, b', back, rfl, passed, failed⟩
        exact ⟨b :: front, b', back, rfl, List.forall_mem_cons.mpr ⟨⟨c, hc⟩, passed⟩, failed⟩
    · rintro ⟨front, b', back, split, passed, failed⟩
      cases front with
      | nil =>
        obtain ⟨rfl, rfl⟩ := List.cons.inj split
        exact .inl failed
      | cons a front =>
        obtain ⟨rfl, rfl⟩ := List.cons.inj split
        rcases passed b List.mem_cons_self with ⟨c, hc⟩
        have later := ih.mpr ⟨front, b', back, rfl,
          fun a ha => passed a (List.mem_cons_of_mem _ ha), failed⟩
        exact .inr ⟨c, hc, except_bind_eq_error.mpr (.inl later)⟩

/-- A traversal fails where one of its steps does. -/
theorem exists_of_except_mapM_eq_error {f : β → Except ε γ} {bs : List β} {e : ε}
    (h : bs.mapM f = .error e) : ∃ b ∈ bs, f b = .error e := by
  rcases except_mapM_eq_error_iff.mp h with ⟨front, b, back, rfl, -, failed⟩
  exact ⟨b, List.mem_append_right _ List.mem_cons_self, failed⟩

/-- The order of a traversal is the order of its results. -/
theorem except_mapM_perm {f : β → Except ε γ} {bs bs' : List β} {cs : List γ} (perm : bs.Perm bs')
    (h : bs.mapM f = .ok cs) : ∃ cs', bs'.mapM f = .ok cs' ∧ cs.Perm cs' := by
  induction perm generalizing cs with
  | nil => exact ⟨cs, h, .refl _⟩
  | cons b _ ih =>
    rcases except_mapM_cons.mp h with ⟨c, rest, hc, hrest, rfl⟩
    rcases ih hrest with ⟨rest', hrest', perm⟩
    exact ⟨c :: rest', except_mapM_cons.mpr ⟨c, rest', hc, hrest', rfl⟩, perm.cons c⟩
  | swap b b' bs =>
    rcases except_mapM_cons.mp h with ⟨c', _, hc', h', rfl⟩
    rcases except_mapM_cons.mp h' with ⟨c, rest, hc, hrest, rfl⟩
    exact ⟨c :: c' :: rest, except_mapM_cons.mpr ⟨c, _, hc,
      except_mapM_cons.mpr ⟨c', rest, hc', hrest, rfl⟩, rfl⟩, .swap c c' rest⟩
  | trans _ _ ih ih' =>
    rcases ih h with ⟨cs', h', perm⟩
    rcases ih' h' with ⟨cs'', h'', perm'⟩
    exact ⟨cs'', h'', perm.trans perm'⟩

/-- Results that are folded as they come are those of a traversal, folded behind it. -/
theorem except_foldlM_eq_mapM {δ : Type} (f : β → Except ε γ) (g : δ → γ → δ) (bs : List β) (d : δ) :
    bs.foldlM (fun d b => do pure (g d (← f b))) d =
      (do pure ((← bs.mapM f).foldl g d) : Except ε δ) := by
  induction bs generalizing d with
  | nil => rfl
  | cons b bs ih =>
    rw [List.foldlM_cons, List.mapM_cons]
    simp only [ih, bind_assoc, pure_bind, List.foldl_cons]

/-- Checks one after the other pass when each does. -/
theorem except_forM_eq_ok {f : β → Except ε Unit} {bs : List β} (h : bs.forM f = .ok ()) :
    ∀ b ∈ bs, f b = .ok () := by
  induction bs with
  | nil => exact fun b hb => (List.not_mem_nil hb).elim
  | cons b bs ih =>
    rcases except_bind_eq_ok.mp h with ⟨_, first, rest⟩
    exact List.forall_mem_cons.mpr ⟨first, ih rest⟩

theorem exists_except_map {x : Except ε β} {g : β → γ} (h : ∃ b, x = .ok b) :
    ∃ c, (x >>= fun b => pure (g b)) = .ok c := by
  rcases h with ⟨b, rfl⟩
  exact ⟨g b, rfl⟩

theorem exists_except_bind {x : Except ε β} {f : β → Except ε γ} {b : β} (hx : x = .ok b)
    (h : ∃ c, f b = .ok c) : ∃ c, (x >>= f) = .ok c := by
  rcases h with ⟨c, hc⟩
  exact ⟨c, except_bind_eq_ok.mpr ⟨b, hx, hc⟩⟩

theorem except_filterMapM_eq_ok {f : β → Except ε (Option γ)} {g : β → Option γ} {bs : List β}
    (h : ∀ b ∈ bs, f b = .ok (g b)) : bs.filterMapM f = .ok (bs.filterMap g) := by
  induction bs with
  | nil => rfl
  | cons b bs ih =>
    obtain ⟨first, rest⟩ := List.forall_mem_cons.mp h
    rw [List.filterMapM_cons, first, ih rest, List.filterMap_cons]
    cases g b <;> rfl

/-- A traversal whose steps begin with those of another one goes on from its results. -/
theorem except_filterMapM_bind {δ : Type} {f : β → Except ε γ} {bs : List β} {cs : List γ}
    (h : bs.mapM f = .ok cs) (g : γ → Except ε (Option δ)) :
    bs.filterMapM (fun b => f b >>= g) = cs.filterMapM g := by
  induction bs generalizing cs with
  | nil =>
    rw [except_mapM_nil.mp h]
    rfl
  | cons b bs ih =>
    obtain ⟨c, rest, hc, hrest, rfl⟩ := except_mapM_cons.mp h
    rw [List.filterMapM_cons, List.filterMapM_cons, hc, ih hrest]
    rfl

/-- Every step of a traversal that succeeds does. -/
theorem except_eq_ok_of_mem_filterMapM {f : β → Except ε (Option γ)} {bs : List β} {cs : List γ}
    (h : bs.filterMapM f = .ok cs) {b : β} (hb : b ∈ bs) : ∃ c, f b = .ok c := by
  induction bs generalizing cs with
  | nil => cases hb
  | cons first bs ih =>
    rw [List.filterMapM_cons] at h
    obtain ⟨c, hc, h⟩ := except_bind_eq_ok.mp h
    rcases List.mem_cons.mp hb with rfl | hb
    · exact ⟨c, hc⟩
    · cases c with
      | none => exact ih h hb
      | some c =>
        obtain ⟨rest, hrest, -⟩ := except_bind_eq_ok.mp h
        exact ih hrest hb

/-- A traversal that fails does so at one of its steps. -/
theorem exists_of_except_filterMapM_eq_error {f : β → Except ε (Option γ)} {bs : List β} {e : ε}
    (h : bs.filterMapM f = .error e) : ∃ b ∈ bs, f b = .error e := by
  induction bs with
  | nil => cases h
  | cons b bs ih =>
    rw [List.filterMapM_cons] at h
    rcases except_bind_eq_error.mp h with failed | ⟨c, -, h⟩
    · exact ⟨b, List.mem_cons_self, failed⟩
    · have rest : bs.filterMapM f = .error e := by
        cases c with
        | none => exact h
        | some c => exact except_map_eq_error.mp h
      obtain ⟨b', hb', failed⟩ := ih rest
      exact ⟨b', List.mem_cons_of_mem _ hb', failed⟩

theorem except_eq_ok_of_isOk {x : Except ε β} (b : β) (h : x.isOk = true) :
    x = .ok (x.toOption.getD b) := by
  cases x with
  | ok y => rfl
  | error e => cases h

/-- A check of the result that passes finds a result. -/
theorem exists_eq_ok_of_any {x : Except ε β} (check : β → Bool)
    (h : x.toOption.any check = true) : ∃ b, x = .ok b ∧ check b = true := by
  cases x with
  | ok b => exact ⟨b, rfl, h⟩
  | error e => cases h

end Except

/-! ## Actions on a state -/

section Succeeds

variable {ε ε' σ β γ : Type}

/-- The action succeeds in the first state with the value and ends in the second state. -/
def Succeeds (x : ExceptT ε (StateM σ) β) (s : σ) (b : β) (s' : σ) : Prop :=
  x.run.run s = (.ok b, s')

/-- A run has one outcome. -/
theorem Succeeds.unique {x : ExceptT ε (StateM σ) β} {s t t' : σ} {b b' : β}
    (h : Succeeds x s b t) (h' : Succeeds x s b' t') : b' = b ∧ t' = t := by
  obtain ⟨value, state⟩ := Prod.ext_iff.mp (h'.symm.trans h)
  exact ⟨Except.ok.inj value, state⟩

/-- The action succeeds, and its value and last state pass a check. -/
def succeedsWith (x : ExceptT ε (StateM σ) β) (s : σ) (check : β → σ → Bool) : Bool :=
  match x.run.run s with
  | (.ok b, t) => check b t
  | (.error _, _) => false

theorem exists_succeeds {x : ExceptT ε (StateM σ) β} {s : σ} {check : β → σ → Bool}
    (h : succeedsWith x s check = true) : ∃ b t, Succeeds x s b t ∧ check b t = true := by
  unfold succeedsWith at h
  split at h
  case h_1 b t run => exact ⟨b, t, run, h⟩
  case h_2 => cases h

/-- A sequence stops where its first part fails. -/
theorem run_bind (x : ExceptT ε (StateM σ) β) (f : β → ExceptT ε (StateM σ) γ) (s : σ) :
    (x >>= f).run.run s =
      match x.run.run s with
      | (.ok b, t) => (f b).run.run t
      | (.error e, t) => (.error e, t) := by
  rw [ExceptT.run_bind, StateT.run_bind]
  change (match (x.run.run s).1 with
    | .ok b => (f b).run
    | .error e => pure (.error e)).run (x.run.run s).2 = _
  rcases x.run.run s with ⟨_ | _, t⟩ <;> rfl

theorem succeeds_bind {x : ExceptT ε (StateM σ) β} {f : β → ExceptT ε (StateM σ) γ}
    {s s' : σ} {c : γ} :
    Succeeds (x >>= f) s c s' ↔ ∃ b t, Succeeds x s b t ∧ Succeeds (f b) t c s' := by
  unfold Succeeds
  rw [run_bind]
  constructor
  · intro h
    cases hx : x.run.run s with
    | mk r t =>
      rw [hx] at h
      cases r with
      | ok b => exact ⟨b, t, rfl, h⟩
      | error e => cases h
  · rintro ⟨b, t, hx, h⟩
    rw [hx]
    exact h

theorem succeeds_pure {s s' : σ} {b c : β} :
    Succeeds (pure b : ExceptT ε (StateM σ) β) s c s' ↔ b = c ∧ s = s' := by
  change ((Except.ok b, s) = (Except.ok c, s')) ↔ _
  simp

theorem not_succeeds_throw {s s' : σ} {e : ε} {b : β} :
    ¬ Succeeds (throw e : ExceptT ε (StateM σ) β) s b s' := by
  intro h
  change ((Except.error e, s) = (Except.ok b, s')) at h
  cases h

theorem succeeds_get_bind {f : σ → ExceptT ε (StateM σ) γ} {s s' : σ} {c : γ} :
    Succeeds (get >>= f) s c s' ↔ Succeeds (f s) s c s' := Iff.rfl

theorem succeeds_set_bind {f : PUnit → ExceptT ε (StateM σ) γ} {s s' t : σ} {c : γ} :
    Succeeds (set t >>= f) s c s' ↔ Succeeds (f ⟨⟩) t c s' := Iff.rfl

theorem succeeds_set {s s' t : σ} {u : PUnit} :
    Succeeds (set t : ExceptT ε (StateM σ) PUnit) s u s' ↔ s' = t := by
  change ((Except.ok PUnit.unit, t) = (Except.ok u, s')) ↔ _
  simp [eq_comm]

theorem succeeds_modify {g : σ → σ} {s s' : σ} {u : PUnit} :
    Succeeds (modify g : ExceptT ε (StateM σ) PUnit) s u s' ↔ s' = g s := by
  change ((Except.ok PUnit.unit, g s) = (Except.ok u, s')) ↔ _
  simp [eq_comm]

theorem succeeds_modify_bind {g : σ → σ} {f : PUnit → ExceptT ε (StateM σ) γ} {s s' : σ} {c : γ} :
    Succeeds (modify g >>= f) s c s' ↔ Succeeds (f ⟨⟩) (g s) c s' := Iff.rfl

/-- A computation without state leaves the state alone. -/
theorem succeeds_liftM {x : Except ε β} {s s' : σ} {b : β} :
    Succeeds (liftM x : ExceptT ε (StateM σ) β) s b s' ↔ x = .ok b ∧ s' = s := by
  change ((x, s) = (Except.ok b, s')) ↔ _
  simp [eq_comm]

theorem succeeds_liftM_bind {x : Except ε β} {f : β → ExceptT ε (StateM σ) γ} {s s' : σ}
    {c : γ} : Succeeds (liftM x >>= f) s c s' ↔ ∃ b, x = .ok b ∧ Succeeds (f b) s c s' := by
  rw [succeeds_bind]
  constructor
  · rintro ⟨b, t, hx, h⟩
    obtain ⟨ok, rfl⟩ := succeeds_liftM.mp hx
    exact ⟨b, ok, h⟩
  · rintro ⟨b, hx, h⟩
    exact ⟨b, s, succeeds_liftM.mpr ⟨hx, rfl⟩, h⟩

theorem succeeds_mapM_nil {f : β → ExceptT ε (StateM σ) γ} {s s' : σ} {cs : List γ} :
    Succeeds ([].mapM f) s cs s' ↔ cs = [] ∧ s' = s := by
  rw [List.mapM_nil, succeeds_pure, eq_comm, eq_comm (a := s)]

theorem succeeds_mapM_cons {f : β → ExceptT ε (StateM σ) γ} {b : β} {bs : List β} {s s' : σ}
    {cs : List γ} :
    Succeeds ((b :: bs).mapM f) s cs s' ↔
      ∃ c rest t, Succeeds (f b) s c t ∧ Succeeds (bs.mapM f) t rest s' ∧ cs = c :: rest := by
  simp only [List.mapM_cons, succeeds_bind, succeeds_pure]
  exact ⟨fun ⟨c, t, hc, rest, u, hrest, h, hu⟩ => ⟨c, rest, t, hc, hu ▸ hrest, h.symm⟩,
    fun ⟨c, rest, t, hc, hrest, h⟩ => ⟨c, t, hc, rest, s', hrest, h.symm, rfl⟩⟩

theorem succeeds_forM_nil {f : β → ExceptT ε (StateM σ) PUnit} {s s' : σ} {u : PUnit} :
    Succeeds ([].forM f) s u s' ↔ s' = s := by
  change ((Except.ok PUnit.unit, s) = (Except.ok u, s')) ↔ _
  simp [eq_comm]

theorem succeeds_forM_cons {f : β → ExceptT ε (StateM σ) PUnit} {b : β} {bs : List β} {s s' : σ}
    {u : PUnit} : Succeeds ((b :: bs).forM f) s u s' ↔
      ∃ t, Succeeds (f b) s ⟨⟩ t ∧ Succeeds (bs.forM f) t u s' := by
  change Succeeds (f b >>= fun _ => bs.forM f) s u s' ↔ _
  rw [succeeds_bind]
  exact ⟨fun ⟨_, t, hb, hbs⟩ => ⟨t, hb, hbs⟩, fun ⟨t, hb, hbs⟩ => ⟨⟨⟩, t, hb, hbs⟩⟩

theorem succeeds_filterMapM_nil {f : β → ExceptT ε (StateM σ) (Option γ)} {s s' : σ}
    {cs : List γ} : Succeeds ([].filterMapM f) s cs s' ↔ cs = [] ∧ s' = s := by
  rw [List.filterMapM_nil, succeeds_pure, eq_comm, eq_comm (a := s)]

theorem succeeds_filterMapM_cons {f : β → ExceptT ε (StateM σ) (Option γ)} {b : β}
    {bs : List β} {s s' : σ} {cs : List γ} :
    Succeeds ((b :: bs).filterMapM f) s cs s' ↔
      ∃ c rest t, Succeeds (f b) s c t ∧ Succeeds (bs.filterMapM f) t rest s' ∧
        cs = c.toList ++ rest := by
  simp only [List.filterMapM_cons, succeeds_bind]
  constructor
  · rintro ⟨c, t, hc, h⟩
    cases c with
    | none => exact ⟨none, cs, t, hc, h, rfl⟩
    | some c =>
      obtain ⟨rest, u, hrest, h⟩ := succeeds_bind.mp h
      obtain ⟨rfl, rfl⟩ := succeeds_pure.mp h
      exact ⟨some c, rest, t, hc, hrest, rfl⟩
  · rintro ⟨c, rest, t, hc, hrest, rfl⟩
    refine ⟨c, t, hc, ?_⟩
    cases c with
    | none => exact hrest
    | some c => exact succeeds_bind.mpr ⟨rest, s', hrest, succeeds_pure.mpr ⟨rfl, rfl⟩⟩

end Succeeds

/-! ## Failed runs -/

section Fails

variable {ε σ β γ : Type}

/-- The action fails in the first state with the error and ends in the second state. -/
def Fails (x : ExceptT ε (StateM σ) β) (s : σ) (e : ε) (s' : σ) : Prop :=
  x.run.run s = (.error e, s')

/-- The action fails, and the error passes a check. -/
def failsWith (x : ExceptT ε (StateM σ) β) (s : σ) (check : ε → Bool) : Bool :=
  match x.run.run s with
  | (.ok _, _) => false
  | (.error e, _) => check e

theorem exists_fails {x : ExceptT ε (StateM σ) β} {s : σ} {check : ε → Bool}
    (h : failsWith x s check = true) : ∃ e s', Fails x s e s' ∧ check e = true := by
  unfold failsWith at h
  split at h
  case h_1 => cases h
  case h_2 e s' run => exact ⟨e, s', run, h⟩

theorem fails_bind {x : ExceptT ε (StateM σ) β} {f : β → ExceptT ε (StateM σ) γ} {s s' : σ}
    {e : ε} : Fails (x >>= f) s e s' ↔
      Fails x s e s' ∨ ∃ b t, Succeeds x s b t ∧ Fails (f b) t e s' := by
  unfold Fails Succeeds
  rw [run_bind]
  rcases x.run.run s with ⟨e' | b, t⟩
  · refine ⟨fun h => .inl ?_, fun h => ?_⟩
    · rw [Prod.mk.injEq, Except.error.injEq] at h ⊢
      exact h
    · rcases h with h | ⟨_, _, h, -⟩
      · rw [Prod.mk.injEq, Except.error.injEq] at h ⊢
        exact h
      · cases h
  · refine ⟨fun h => .inr ⟨b, t, rfl, h⟩, fun h => ?_⟩
    rcases h with h | ⟨b', t', h, failed⟩
    · cases h
    · cases h
      exact failed

theorem fails_throw {s s' : σ} {e e' : ε} :
    Fails (throw e : ExceptT ε (StateM σ) β) s e' s' ↔ e' = e ∧ s' = s := by
  change ((Except.error e, s) = ((Except.error e', s') : Except ε β × σ)) ↔ _
  rw [Prod.mk.injEq, Except.error.injEq, eq_comm, eq_comm (a := s)]

theorem not_fails_modify {g : σ → σ} {s s' : σ} {e : ε} :
    ¬ Fails (modify g : ExceptT ε (StateM σ) PUnit) s e s' := nofun

theorem fails_get_bind {f : σ → ExceptT ε (StateM σ) γ} {s s' : σ} {e : ε} :
    Fails (get >>= f) s e s' ↔ Fails (f s) s e s' := Iff.rfl

theorem fails_liftM_bind {x : Except ε β} {f : β → ExceptT ε (StateM σ) γ} {s s' : σ} {e : ε} :
    Fails (liftM x >>= f) s e s' ↔
      (x = .error e ∧ s' = s) ∨ ∃ b, x = .ok b ∧ Fails (f b) s e s' := by
  rw [fails_bind]
  have first : Fails (liftM x : ExceptT ε (StateM σ) β) s e s' ↔ x = .error e ∧ s' = s := by
    change ((x, s) = ((Except.error e, s') : Except ε β × σ)) ↔ _
    rw [Prod.mk.injEq, eq_comm (a := s)]
  rw [first]
  refine or_congr_right ⟨?_, ?_⟩
  · rintro ⟨b, t, run, failed⟩
    obtain ⟨hx, rfl⟩ := succeeds_liftM.mp run
    exact ⟨b, hx, failed⟩
  · rintro ⟨b, hx, failed⟩
    exact ⟨b, s, succeeds_liftM.mpr ⟨hx, rfl⟩, failed⟩

theorem not_fails_forM_nil {f : β → ExceptT ε (StateM σ) PUnit} {s s' : σ} {e : ε} :
    ¬ Fails ([].forM f) s e s' := nofun

theorem fails_forM_cons {f : β → ExceptT ε (StateM σ) PUnit} {b : β} {bs : List β} {s s' : σ}
    {e : ε} : Fails ((b :: bs).forM f) s e s' ↔
      Fails (f b) s e s' ∨ ∃ t, Succeeds (f b) s ⟨⟩ t ∧ Fails (bs.forM f) t e s' := by
  change Fails (f b >>= fun _ => bs.forM f) s e s' ↔ _
  rw [fails_bind]
  exact or_congr_right ⟨fun ⟨_, t, hb, hbs⟩ => ⟨t, hb, hbs⟩, fun ⟨t, hb, hbs⟩ => ⟨⟨⟩, t, hb, hbs⟩⟩

/-- A sequence fails at one of its steps, and what the steps before it keep still holds there. -/
theorem exists_of_fails_forM {P : σ → Prop} {f : β → ExceptT ε (StateM σ) PUnit} {bs : List β}
    {s s' : σ} {e : ε} (keeps : ∀ b ∈ bs, ∀ s t, P s → Succeeds (f b) s ⟨⟩ t → P t) (start : P s)
    (failed : Fails (bs.forM f) s e s') : ∃ b ∈ bs, ∃ t, P t ∧ Fails (f b) t e s' := by
  induction bs generalizing s with
  | nil => exact (not_fails_forM_nil failed).elim
  | cons b bs ih =>
    rcases List.forall_mem_cons.mp keeps with ⟨first, rest⟩
    rcases fails_forM_cons.mp failed with failed | ⟨t, run, failed⟩
    · exact ⟨b, List.mem_cons_self, s, start, failed⟩
    · rcases ih rest (first s t start run) failed with ⟨b', hb', t', ht', failed⟩
      exact ⟨b', List.mem_cons_of_mem _ hb', t', ht', failed⟩

/-- A property that every step keeps where it succeeds survives a sequence that succeeds. -/
theorem holds_of_succeeds_forM {P : σ → Prop} {f : β → ExceptT ε (StateM σ) PUnit} {bs : List β}
    {s s' : σ} (keeps : ∀ b ∈ bs, ∀ s t, P s → Succeeds (f b) s ⟨⟩ t → P t) (start : P s)
    (run : Succeeds (bs.forM f) s ⟨⟩ s') : P s' := by
  induction bs generalizing s with
  | nil =>
    obtain rfl := succeeds_forM_nil.mp run
    exact start
  | cons b bs ih =>
    rcases List.forall_mem_cons.mp keeps with ⟨first, rest⟩
    rcases succeeds_forM_cons.mp run with ⟨t, hb, hbs⟩
    exact ih rest (first s t start hb) hbs

end Fails

/-! ## Both outcomes -/

section Ends

variable {ε σ β γ : Type}

/-- The result of an action started in a state, and the state it ends in. -/
def Ends (x : ExceptT ε (StateM σ) β) (s : σ) (Q : Except ε β → σ → Prop) : Prop :=
  Q (x.run.run s).1 (x.run.run s).2

/-- The property survives the action, also where it fails. -/
def Keeps (P : σ → Prop) (x : ExceptT ε (StateM σ) β) : Prop := ∀ s, P s → Ends x s fun _ => P

variable {x : ExceptT ε (StateM σ) β} {f : β → ExceptT ε (StateM σ) γ} {s t : σ}

theorem Ends.mono {Q R : Except ε β → σ → Prop} (h : Ends x s Q) (hQ : ∀ r t, Q r t → R r t) :
    Ends x s R := hQ _ _ h

/-- The two outcomes of a sequence. -/
theorem ends_bind {Q : Except ε γ → σ → Prop}
    (h : Ends x s fun r t => match r with
      | .ok b => Ends (f b) t Q
      | .error e => Q (.error e) t) : Ends (x >>= f) s Q := by
  unfold Ends at h ⊢
  rw [run_bind]
  cases hr : x.run.run s with
  | mk r t =>
    rw [hr] at h
    cases r with
    | error e => exact h
    | ok b => exact h

theorem ends_modify {g : σ → σ} {Q : Except ε PUnit → σ → Prop} :
    Ends (modify g) s Q ↔ Q (.ok ⟨⟩) (g s) := Iff.rfl

theorem ends_get_bind {f : σ → ExceptT ε (StateM σ) γ} {Q : Except ε γ → σ → Prop} :
    Ends (get >>= f) s Q ↔ Ends (f s) s Q := Iff.rfl

theorem ends_liftM_bind {y : Except ε β} {Q : Except ε γ → σ → Prop} :
    Ends (liftM y >>= f) s Q ↔
      (∀ b, y = .ok b → Ends (f b) s Q) ∧ ∀ e, y = .error e → Q (.error e) s := by
  constructor
  · intro h
    exact ⟨fun b hb => by subst hb; exact h, fun e he => by subst he; exact h⟩
  · intro h
    cases y with
    | ok b => exact h.1 b rfl
    | error e => exact h.2 e rfl

theorem keeps_bind {P : σ → Prop} (hx : Keeps P x) (hf : ∀ b, Keeps P (f b)) :
    Keeps P (x >>= f) :=
  fun s hs => ends_bind ((hx s hs).mono fun r t ht => match r with
    | .ok b => hf b t ht
    | .error _ => ht)

theorem keeps_pure {P : σ → Prop} {b : β} : Keeps P (pure b : ExceptT ε (StateM σ) β) :=
  fun _ h => h

theorem keeps_forM {P : σ → Prop} {bs : List β} {f : β → ExceptT ε (StateM σ) PUnit}
    (h : ∀ b ∈ bs, Keeps P (f b)) : Keeps P (bs.forM f) := by
  induction bs with
  | nil => exact keeps_pure
  | cons b bs ih =>
    exact keeps_bind (h b List.mem_cons_self) fun _ =>
      ih fun c hc => h c (List.mem_cons_of_mem _ hc)

/-- Runs one after the other: each settles something for its own item, and none undoes what is
settled for another. -/
theorem ends_forM {P : σ → Prop} {S : β → σ → Prop} {bs : List β}
    {f : β → ExceptT ε (StateM σ) PUnit}
    (h : ∀ b ∈ bs, ∀ s, P s → Ends (f b) s fun r t =>
      P t ∧ (r = .ok ⟨⟩ → S b t) ∧ ∀ c, S c s → S c t) (s : σ) (start : P s) :
    Ends (bs.forM f) s fun r t =>
      P t ∧ (r = .ok ⟨⟩ → ∀ b ∈ bs, S b t) ∧ ∀ c, S c s → S c t := by
  induction bs generalizing s with
  | nil => exact ⟨start, fun _ b hb => (List.not_mem_nil hb).elim, fun _ settled => settled⟩
  | cons b bs ih =>
    refine ends_bind ((h b List.mem_cons_self s start).mono fun r t first => ?_)
    rcases first with ⟨kept, settles, stays⟩
    cases r with
    | error => exact ⟨kept, fun failed => (by cases failed), stays⟩
    | ok =>
      refine (ih (fun c hc => h c (List.mem_cons_of_mem _ hc)) t kept).mono fun r u rest => ?_
      rcases rest with ⟨kept, settled, later⟩
      refine ⟨kept, fun ok c hc => ?_, fun c before => later c (stays c before)⟩
      rcases List.mem_cons.mp hc with rfl | hc
      · exact later c (settles rfl)
      · exact settled ok c hc

end Ends

end Influence
