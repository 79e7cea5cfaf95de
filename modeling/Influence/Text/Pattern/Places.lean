import Influence.Text.Pattern.Basic

/-!
# Matching

A pattern is laid out as places, numbered in an array, between which characters lead.  A match
may begin anywhere in a text, and of those that begin first only the most preferred one counts:
`accepts` asks whether a match ends where the text does.

While a text is read, the places that it may have led to are kept in order of preference.  A
place where the pattern is done ends all that is less preferred, so another match, or a longer
one, is followed only as long as it is the preferred one.

Each place is entered once per position (`nodup_spread`), which is what makes a repetition end
whose body takes no character.  Whether a boundary is there may become known only with the next
character; `known` then enters the places behind it.
-/

namespace Influence.Pattern

/-- What happens at a place. -/
inductive Place where
  /-- The pattern is done. -/
  | done
  /-- Nothing leads on. -/
  | stop
  | character (set : CharSet) (next : Nat)
  | boundary (b : Boundary) (next : Nat)
  /-- Two ways on, the preferred one first. -/
  | fork (first second : Nat)
  deriving Repr, DecidableEq

namespace Place

/-- The ways into a part and past it. -/
def branch (greedy : Bool) (inside past : Nat) : Place :=
  if greedy then fork inside past else fork past inside

/-- The places that are entered with this one. -/
def onward (holds : Boundary → Bool) : Place → List Nat
  | fork first second => [first, second]
  | boundary b next => if holds b then [next] else []
  | _ => []

end Place

/-- Adds the places of a pattern in front of the place `next`, and says where it begins.  A
repetition comes back to its own fork; one whose body may take no character is passed by a fork
in front of it, since the body has to be tried before its own fork is entered. -/
def lay (next : Nat) : Pattern → Array Place → Nat × Array Place
  | empty, a => (next, a)
  | oneOf set, a => (a.size, a.push (if set.isEmpty then .stop else .character set next))
  | boundary b, a => (a.size, a.push (.boundary b next))
  | sequence p q, a =>
    let (middle, a) := q.lay next a
    p.lay middle a
  | either p q, a =>
    let (first, a) := p.lay next a
    let (second, a) := q.lay next a
    (a.size, a.push (.fork first second))
  | optional greedy p, a =>
    let (inside, a) := p.lay next a
    (a.size, a.push (.branch greedy inside next))
  | plus greedy p, a =>
    let again := a.size
    let (inside, a) := p.lay again (a.push .stop)
    (inside, a.setIfInBounds again (.branch greedy inside next))
  | star greedy p, a =>
    let again := a.size
    let (inside, a) := p.lay again (a.push .stop)
    let a := a.setIfInBounds again (.branch greedy inside next)
    if p.takesEmpty then (a.size, a.push (.branch greedy inside next)) else (again, a)

namespace Place

/-- Enters places and all that are entered with them, each of the unseen ones once, the preferred
ones first. -/
def spread (a : Array Place) (holds : Boundary → Bool) (unseen : List Nat) : List Nat → List Nat
  | [] => []
  | i :: rest =>
    if i ∈ unseen then
      i :: spread a holds (unseen.erase i) (((a[i]?.map (onward holds)).getD []) ++ rest)
    else spread a holds unseen rest
  termination_by entered => (unseen.length, entered.length)
  decreasing_by
    · exact .left _ _ (by
        rw [List.length_erase_of_mem ‹_›]
        have := List.length_pos_of_mem ‹i ∈ unseen›
        omega)
    · exact .right _ (Nat.lt_succ_self _)

/-- Enters places where nothing is known of the next character, and keeps those that wait for it.
A place that nothing leads on from ends all that is less preferred. -/
def arrive (a : Array Place) (before : Option Char) (entered : List Nat) : List Nat :=
  ((spread a (·.holdsBehind before) (List.range a.size) entered).takeWhile
    fun i => a[i]? != some stop).filter fun i => (a[i]?.map fun
      | fork _ _ => false
      | _ => true).getD false

/-- The places when the next character is known: if it makes a boundary out of one, the places
behind that are entered. -/
def known (a : Array Place) (before after : Option Char) (waiting : List Nat) : List Nat :=
  if waiting.any fun i => match a[i]? with
    | some (boundary b _) => b.holds before after && !b.holdsBehind before
    | _ => false
  then spread a (·.holds before after) (List.range a.size) waiting else waiting

/-- Where a character leads, up to a place where the pattern is done. -/
def step (a : Array Place) (c : Char) : List Nat → List Nat
  | [] => []
  | i :: rest =>
    match a[i]? with
    | some done => []
    | some (character set next) => if set.contains c then next :: step a c rest else step a c rest
    | _ => step a c rest

/-- The pattern is done at the end of the text. -/
def run (a : Array Place) (before : Option Char) (waiting : List Nat) : List Char → Bool
  | [] => (known a before none waiting).any fun i => a[i]? == some done
  | c :: cs =>
    run a (some c) (arrive a (some c) (step a c (known a before (some c) waiting))) cs

end Place

/-- The pattern behind whatever is skipped in front of it, as little as can be. -/
def anywhere (p : Pattern) : Pattern := (star false (oneOf .full)).sequence p

/-- The first match in the text, and of those that begin with it the most preferred, ends where
the text does. -/
def accepts (p : Pattern) (cs : List Char) : Bool :=
  let (start, a) := p.anywhere.lay 0 #[.done]
  Place.run a none (Place.arrive a none [start]) cs

/-! ## Lemmas -/

namespace Place

/-- Only unseen places are entered. -/
theorem mem_of_mem_spread {a : Array Place} {holds : Boundary → Bool} {unseen entered : List Nat}
    {i : Nat} (h : i ∈ spread a holds unseen entered) : i ∈ unseen := by
  fun_induction spread a holds unseen entered with
  | case1 => cases h
  | case2 unseen j rest hj ih =>
    rcases List.mem_cons.1 h with rfl | h
    · exact hj
    · exact List.mem_of_mem_erase (ih h)
  | case3 unseen j rest _ ih => exact ih h

/-- No place is entered twice. -/
theorem nodup_spread {a : Array Place} {holds : Boundary → Bool} {unseen entered : List Nat}
    (h : unseen.Nodup) : (spread a holds unseen entered).Nodup := by
  fun_induction spread a holds unseen entered with
  | case1 => exact List.nodup_nil
  | case2 unseen j rest _ ih =>
    exact List.nodup_cons.2
      ⟨fun hm => (List.Nodup.mem_erase_iff h).1 (mem_of_mem_spread hm) |>.1 rfl, ih (h.erase j)⟩
  | case3 unseen j rest _ ih => exact ih h

/-- Where no place is left the pattern is not done. -/
theorem run_nil (a : Array Place) (before : Option Char) (cs : List Char) :
    run a before [] cs = false := by
  induction cs generalizing before with
  | nil => simp [run, known]
  | cons c cs ih => simpa [run, known, step, arrive, spread] using ih (some c)

end Place

end Influence.Pattern
