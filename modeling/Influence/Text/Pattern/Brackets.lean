import Influence.Text.Pattern.Mode

/-!
# Escapes and sets in brackets

What a backslash stands for, and the sets that are written in brackets: characters, ranges, kinds
of characters and further sets one after another, joined by `&&`, `--` and `~~` from left to
right.  How deep a notation is nested is counted along, since there is a limit to it.
-/

namespace Influence

/-- What is written with a backslash. -/
inductive Escape where
  /-- A character, with `isByte` if it is written as a byte. -/
  | literal (c : Char) (isByte : Bool)
  | set (s : CharSet)
  | boundary (b : Boundary)
  deriving Repr, DecidableEq

namespace Escape

/-- Reads hexadecimal digits, as many as asked for. -/
def digits? (mode : Mode) : Nat → Nat → List Char → Option (Nat × List Char)
  | 0, value, cs => some (value, cs)
  | n + 1, value, cs =>
    match mode.skip cs with
    | c :: cs =>
      if c.isDigit then digits? mode n (value * 16 + (c.toNat - '0'.toNat)) cs
      else if 'a' ≤ c.toLower ∧ c.toLower ≤ 'f' then
        digits? mode n (value * 16 + (c.toLower.toNat - 'a'.toNat + 10)) cs
      else none
    | [] => none

/-- Reads a character by its code point. -/
def codePoint? (mode : Mode) (count : Nat) (isByte : Bool) (cs : List Char) :
    Option (Escape × List Char) := do
  let (n, cs) ← digits? mode count 0 cs
  if n.isValidChar then pure (literal (Char.ofNat n) isByte, cs) else failure

/-- Reads what follows a backslash.  Other letters and digits stand for nothing, other marks of
ASCII for themselves. -/
def read? (mode : Mode) : List Char → Option (Escape × List Char)
  | [] => none
  | 'x' :: cs => codePoint? mode 2 true cs
  | 'u' :: cs => codePoint? mode 4 false cs
  | 'U' :: cs => codePoint? mode 8 false cs
  | c :: cs =>
    let escape? := match c with
      | 'a' => some (literal '\x07' false)
      | 'f' => some (literal '\x0c' false)
      | 't' => some (literal '\t' false)
      | 'n' => some (literal '\n' false)
      | 'r' => some (literal '\r' false)
      | 'v' => some (literal '\x0b' false)
      | 'A' => some (boundary .textStart)
      | 'z' => some (boundary .textEnd)
      | 'b' => (mode.wordBoundary? .word).map boundary
      | 'B' => (mode.wordBoundary? .noWord).map boundary
      | '<' => (mode.wordBoundary? .wordStart).map boundary
      | '>' => (mode.wordBoundary? .wordEnd).map boundary
      | c =>
        if c.isAlpha then (mode.named? c).map set
        else if c.toNat < 0x80 && !c.isDigit then some (literal c false)
        else none
    escape?.map (·, cs)

/-- Reads a member of a set in brackets. -/
def member? (mode : Mode) : List Char → Option (Escape × List Char)
  | [] => none
  | '\\' :: cs => read? mode cs
  | c :: cs => some (literal c false, cs)

end Escape

/-- A set in brackets or a part of it, with how deep it is nested. -/
structure BracketSet where
  set : CharSet
  depth : Nat
  deriving Repr, DecidableEq

namespace BracketSet

/-- A member that is not nested. -/
def flat (set : CharSet) : BracketSet := ⟨set, 0⟩

/-- All members together. -/
def ofMembers : List BracketSet → BracketSet
  | [] => flat .empty
  | [s] => s
  | ss => ⟨(ss.map set).foldr .union .empty, ((ss.map depth).foldr max 0) + 1⟩

/-- Two sets joined by an operation. -/
def join (operation : CharSet → CharSet → CharSet) (s t : BracketSet) : BracketSet :=
  ⟨operation s.set t.set, max s.depth t.depth + 1⟩

/-- The set with its brackets. -/
def enclosed? (mode : Mode) (isComplement : Bool) (s : BracketSet) : Option BracketSet :=
  (if isComplement then mode.complement? s.set else some s.set).map (⟨·, s.depth + 1⟩)

/-- Reads what a circumflex behind the opening bracket says. -/
def opening (mode : Mode) (cs : List Char) : Bool × List Char :=
  match mode.skip cs with
  | '^' :: cs => (true, cs)
  | cs => (false, cs)

/-- Reads the name of a kind of characters, behind an opening bracket.  The outer option says
whether there is one, the inner one whether the mode admits it. -/
def kind? (mode : Mode) : List Char → Option (Option CharSet × List Char)
  | ':' :: cs =>
    let (isComplement, cs) := match cs with
      | '^' :: cs => (true, cs)
      | cs => (false, cs)
    let name := String.ofList (cs.takeWhile (· != ':'))
    match cs.dropWhile (· != ':') with
    | ':' :: ']' :: cs => (CharSet.kinds.lookup name).map fun s =>
      ((mode.member? s).bind fun s => if isComplement then mode.complement? s else some s, cs)
    | _ => none
  | _ => none

/-- Reads a character, a range or a set with a backslash.  A hyphen makes a range unless a
closing bracket or another hyphen follows it. -/
def item? (mode : Mode) (cs : List Char) : Option (CharSet × List Char) := do
  let (first, cs) ← Escape.member? mode cs
  let single : Option CharSet := match first with
    | .literal c isByte =>
      if mode.unicode || c.toNat < 0x80 then mode.literal? c isByte else none
    | .set s => some s
    | .boundary _ => none
  match mode.skip cs with
  | '-' :: rest =>
    if mode.afterHyphen rest = some ']' ∨ mode.afterHyphen rest = some '-' then
      single.map (·, '-' :: rest)
    else
      match first, ← Escape.member? mode (mode.skip rest) with
      | .literal c _, (.literal d _, cs) => (mode.range? c d).map (·, cs)
      | _, _ => none
  | cs => single.map (·, cs)

/-- Reads members up to the closing bracket.  `operate` takes them as the right operand of the
operation in front of them.  As long as `isFresh` holds only hyphens were read, which stand for
themselves there, as does a closing bracket in front of all members.  Each step takes a character
at least. -/
def members? (mode : Mode) : Nat → (BracketSet → BracketSet) → (isFresh : Bool) →
    List BracketSet → List Char → Option (BracketSet × List Char)
  | 0, _, _, _, _ => none
  | n + 1, operate, isFresh, members, cs =>
    let whole := operate (ofMembers members)
    let literal (c : Char) (isFresh : Bool) (cs : List Char) := do
      let s ← mode.literal? c false
      members? mode n operate isFresh (flat s :: members) cs
    match isFresh, mode.skip cs with
    | _, [] => none
    | true, '-' :: cs => literal '-' true cs
    | true, ']' :: cs => if members.isEmpty then literal ']' false cs else some (whole, cs)
    | false, ']' :: cs => some (whole, cs)
    | _, '&' :: '&' :: cs => members? mode n (join .inter whole) false [] cs
    | _, '-' :: '-' :: cs => members? mode n (join .difference whole) false [] cs
    | _, '~' :: '~' :: cs => members? mode n (join .symmetricDifference whole) false [] cs
    | _, '[' :: cs =>
      match kind? mode cs with
      | some (s?, cs) => s?.bind fun s => members? mode n operate false (flat s :: members) cs
      | none => do
        let (isComplement, cs) := opening mode cs
        let (inner, cs) ← members? mode n id true [] cs
        members? mode n operate false ((← enclosed? mode isComplement inner) :: members) cs
    | _, cs => do
      let (s, cs) ← item? mode cs
      members? mode n operate false (flat s :: members) cs

/-- Reads a set behind its opening bracket. -/
def read? (mode : Mode) (cs : List Char) : Option (BracketSet × List Char) := do
  let (isComplement, cs) := opening mode cs
  let (s, cs) ← members? mode (cs.length + 1) id true [] cs
  (enclosed? mode isComplement s).map (·, cs)

/-! ## Lemmas -/

/-- A character is among members if it is in one of them. -/
theorem contains_ofMembers (ss : List BracketSet) (c : Char) :
    (ofMembers ss).set.contains c = ss.any (·.set.contains c) := by
  have h : ∀ ss : List CharSet,
      (ss.foldr CharSet.union CharSet.empty).contains c = ss.any (·.contains c) := by
    intro ss
    induction ss with
    | nil => rfl
    | cons s ss ih => rw [List.foldr_cons, CharSet.contains, ih, List.any_cons]
  fun_cases ofMembers ss with
  | case1 => rfl
  | case2 s => simp
  | case3 => rw [h, List.any_map]; rfl

end BracketSet

end Influence
