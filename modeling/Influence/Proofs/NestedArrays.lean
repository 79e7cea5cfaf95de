import Influence.Proofs.BuildErrors
import Influence.Proofs.LinkedShares

/-!
# Nested arrays that are rectangular

Tables in files are numbers in nested lists.  A nested array is rectangular if items next to each
other have the same shape, at every level (`Nested.IsRectangular`).  Flattening compares every item
with the first of its list only, and gives the shape and the numbers from left to right exactly for
the rectangular arrays (`Nested.flatten_eq_ok_iff`).

In a rectangular array the indices in the range of its shape are those that lead to a number
(`Nested.IsRectangular.inRange_iff`), and the rank of such an index is the place of that number
among the entries (`Nested.IsRectangular.getElem?_entries`).  So the table of the entries holds
under every index what the nested lists hold there.
-/

namespace Influence

namespace Nested

variable {α : Type}

/-- What holds of numbers, and of an array whose items it holds of, holds of nested arrays. -/
@[elab_as_elim]
theorem induction {motive : Nested α → Prop} (scalar : ∀ x, motive (.scalar x))
    (array : ∀ items, (∀ item ∈ items, motive item) → motive (.array items)) (n : Nested α) :
    motive n :=
  Nested.rec (motive_2 := fun items => ∀ item ∈ items, motive item) scalar array
    (fun _ h => nomatch h)
    (fun _ _ first rest => List.forall_mem_cons.mpr ⟨first, rest⟩) n

/-! ## Shapes, entries and parts -/

/-- The shape, read off the first items. -/
def shape : Nested α → List ℕ
  | scalar _ => []
  | array [] => [0]
  | array (item :: rest) => (rest.length + 1) :: shape item

/-- The numbers from left to right. -/
def entries : Nested α → List α
  | scalar x => [x]
  | array items => items.flatMap entries

/-- The part that an index leads to. -/
def follow : Nested α → List ℕ → Option (Nested α)
  | n, [] => some n
  | scalar _, _ :: _ => none
  | array items, i :: index => (items[i]?).bind fun item => item.follow index

/-- Items next to each other have the same shape, at every level. -/
def IsRectangular (n : Nested α) : Prop :=
  ∀ index items, n.follow index = some (array items) →
    ∀ item ∈ items, ∀ other ∈ items, item.shape = other.shape

theorem shape_array (items : List (Nested α)) :
    (array items).shape = items.length :: (items.head?.map shape).getD [] := by
  cases items <;> rfl

theorem entries_array (items : List (Nested α)) :
    (array items).entries = items.flatMap entries := by
  rw [entries]

/-- An array is rectangular if its items are, and have the same shape. -/
theorem isRectangular_array {items : List (Nested α)} : (array items).IsRectangular ↔
    (∀ item ∈ items, item.IsRectangular) ∧
      ∀ item ∈ items, ∀ other ∈ items, item.shape = other.shape := by
  constructor
  · intro h
    refine ⟨fun item member index inner found => ?_, h [] items rfl⟩
    obtain ⟨i, listed⟩ := List.mem_iff_getElem?.mp member
    refine h (i :: index) inner ?_
    rw [follow, listed, Option.bind_some, found]
  · rintro ⟨inside, same⟩ index inner found
    cases index with
    | nil =>
      cases found
      exact same
    | cons i index =>
      rw [follow] at found
      obtain ⟨item, listed, found⟩ := Option.bind_eq_some_iff.mp found
      exact inside item (List.mem_of_getElem? listed) index inner found

theorem isRectangular_scalar (x : α) : (scalar x).IsRectangular := by
  intro index items found
  cases index <;> cases found

theorem shape_array_of_mem {items : List (Nested α)} {item : Nested α} (h : item ∈ items)
    (same : ∀ item ∈ items, ∀ other ∈ items, item.shape = other.shape) :
    (array items).shape = items.length :: item.shape := by
  cases items with
  | nil => cases h
  | cons first rest =>
    rw [shape_array, same item h first List.mem_cons_self]
    rfl

/-! ## Flattening -/

/-- Items have a common shape if each of them has the one that is wanted, or without such a one
that of the first item. -/
private theorem flattenItems_eq_ok_iff {items : List (Nested α)}
    (inside : ∀ item ∈ items, ∀ depth r, item.flattenAt depth = .ok r ↔
      item.IsRectangular ∧ r = (item.shape, item.entries))
    {depth element : ℕ} {wanted common : Option (List ℕ)} {all : List α} :
    flattenItems depth element wanted items = .ok (common, all) ↔
      (∀ item ∈ items, item.IsRectangular ∧ common = some item.shape) ∧
        common = wanted.or (items.head?.map shape) ∧ all = items.flatMap entries := by
  induction items generalizing element wanted common all with
  | nil =>
    rw [flattenItems, Except.ok.injEq, Prod.mk.injEq, eq_comm, eq_comm (a := [])]
    simp
  | cons item rest ih =>
    obtain ⟨own, others⟩ := List.forall_mem_cons.mp inside
    have agrees : item.shape = wanted.getD item.shape ∧ common = some (wanted.getD item.shape) ↔
        common = some item.shape ∧ common = wanted.or (some item.shape) := by
      cases wanted with
      | none => simp
      | some s =>
        rw [Option.getD_some, Option.some_or]
        constructor <;>
        · rintro ⟨rfl, same⟩
          simp_all
    rw [List.forall_mem_cons, List.head?_cons, Option.map_some, List.flatMap_cons, flattenItems]
    constructor
    · intro h
      obtain ⟨⟨s, numbers⟩, run, h⟩ := except_bind_eq_ok.mp h
      obtain ⟨rectangular, read⟩ := (own _ _).mp run
      obtain ⟨rfl, rfl⟩ := Prod.mk.inj read
      dsimp only at h
      split at h
      case isTrue => cases h
      case isFalse taken =>
        obtain ⟨⟨after, behind⟩, run, h⟩ := except_bind_eq_ok.mp h
        cases except_pure_eq_ok.mp h
        obtain ⟨uniform, settled, rfl⟩ := (ih others).mp run
        obtain ⟨first, head⟩ := agrees.mp ⟨not_not.mp taken, settled⟩
        exact ⟨⟨⟨rectangular, first⟩, uniform⟩, head, rfl⟩
    · rintro ⟨⟨⟨rectangular, first⟩, uniform⟩, head, rfl⟩
      obtain ⟨taken, settled⟩ := agrees.mpr ⟨first, head⟩
      refine except_bind_eq_ok.mpr ⟨_, (own _ _).mpr ⟨rectangular, rfl⟩, ?_⟩
      dsimp only
      rw [if_neg (not_not.mpr taken)]
      exact except_bind_eq_ok.mpr ⟨_, (ih others).mpr ⟨uniform, settled, rfl⟩, rfl⟩

/-- Flattening succeeds on the rectangular arrays, with their shape and entries. -/
theorem flattenAt_eq_ok_iff (n : Nested α) (depth : ℕ) (r : List ℕ × List α) :
    n.flattenAt depth = .ok r ↔ n.IsRectangular ∧ r = (n.shape, n.entries) := by
  induction n using induction generalizing depth r with
  | scalar x =>
    rw [flattenAt, Except.ok.injEq, and_iff_right (isRectangular_scalar x), entries]
    exact eq_comm
  | array items ih =>
    rw [flattenAt, isRectangular_array, entries_array]
    constructor
    · intro h
      obtain ⟨⟨common, all⟩, run, h⟩ := except_bind_eq_ok.mp h
      cases except_pure_eq_ok.mp h
      obtain ⟨uniform, head, rfl⟩ := (flattenItems_eq_ok_iff ih).mp run
      refine ⟨⟨fun item member => (uniform item member).1, fun item member other member' => ?_⟩, ?_⟩
      · exact Option.some.inj ((uniform item member).2.symm.trans (uniform other member').2)
      · rw [head, Option.none_or, shape_array]
    · rintro ⟨⟨inside, same⟩, rfl⟩
      refine except_bind_eq_ok.mpr ⟨_, (flattenItems_eq_ok_iff ih).mpr
        ⟨fun item member => ⟨inside item member, ?_⟩, rfl, rfl⟩, ?_⟩
      · obtain ⟨first, rest, rfl⟩ := List.exists_cons_of_ne_nil (List.ne_nil_of_mem member)
        rw [Option.none_or, List.head?_cons, Option.map_some,
          same item member first List.mem_cons_self]
      · rw [Option.none_or, shape_array]
        rfl

theorem flatten_eq_ok_iff {n : Nested α} {r : List ℕ × List α} :
    n.flatten = .ok r ↔ n.IsRectangular ∧ r = (n.shape, n.entries) :=
  flattenAt_eq_ok_iff n 0 r

namespace IsRectangular

variable {n : Nested α} (h : n.IsRectangular)

include h

theorem flatten_eq : n.flatten = .ok (n.shape, n.entries) := flatten_eq_ok_iff.mpr ⟨h, rfl⟩

theorem length_entries : n.entries.length = n.shape.prod := length_of_flatten h.flatten_eq

/-! ## Indices -/

/-- The indices in range are those that lead to a number. -/
theorem inRange_iff (index : List ℕ) :
    inRange n.shape index = true ↔ ∃ x, n.follow index = some (scalar x) := by
  induction n using induction generalizing index with
  | scalar x =>
    cases index with
    | nil => exact iff_of_true rfl ⟨x, rfl⟩
    | cons i index => exact iff_of_false nofun nofun
  | array items ih =>
    obtain ⟨inside, same⟩ := isRectangular_array.mp h
    cases index with
    | nil =>
      rw [shape_array]
      exact iff_of_false nofun nofun
    | cons i index =>
      rw [follow]
      cases listed : items[i]? with
      | none =>
        rw [shape_array, inRange_cons]
        have beyond := List.getElem?_eq_none_iff.mp listed
        exact iff_of_false (fun within => within.1.not_ge beyond) nofun
      | some item =>
        have member := List.mem_of_getElem? listed
        obtain ⟨within, -⟩ := List.getElem?_eq_some_iff.mp listed
        rw [shape_array_of_mem member same, inRange_cons, and_iff_right within, Option.bind_some]
        exact ih item member (inside item member) index

/-- The rank of an index is the place of the number that it leads to. -/
theorem getElem?_entries {index : List ℕ} {x : α} (found : n.follow index = some (scalar x)) :
    n.entries[rank n.shape index]? = some x := by
  induction n using induction generalizing index with
  | scalar y =>
    cases index with
    | nil =>
      cases found
      rw [entries]
      rfl
    | cons i index => cases found
  | array items ih =>
    obtain ⟨inside, same⟩ := isRectangular_array.mp h
    cases index with
    | nil => cases found
    | cons i index =>
      rw [follow] at found
      obtain ⟨item, listed, found⟩ := Option.bind_eq_some_iff.mp found
      have member := List.mem_of_getElem? listed
      have within := (inRange_iff (inside item member) index).mpr ⟨x, found⟩
      -- The items are blocks of one length, and the first coordinate is the number of the block.
      have blocks : ∀ row ∈ items.map entries, row.length = item.shape.prod := by
        rintro _ row
        obtain ⟨other, member', rfl⟩ := List.mem_map.mp row
        rw [length_entries (inside other member'), same other member' item member]
      rw [shape_array_of_mem member same, rank_cons, entries_array, List.flatMap_def,
        flatten_getElem?_block blocks i (rank_lt_prod within), List.getElem?_map, listed]
      exact ih item member (inside item member) found

/-! ## Tables -/

/-- The entries make a table if a word can count them. -/
theorem exists_ofData_iff :
    (∃ t, Tensor.ofData n.shape n.entries.toArray = .ok t) ↔ n.entries.length < Word.count64 := by
  have count : entryCount n.shape = n.entries.length % Word.count64 := by
    rw [entryCount_eq, h.length_entries]
  unfold Tensor.ofData
  rw [count, List.size_toArray]
  constructor
  · rintro ⟨t, made⟩
    split at made
    case isTrue fits =>
      rw [← fits]
      exact Nat.mod_lt _ (by decide)
    case isFalse => cases made
  · intro fits
    exact ⟨_, if_pos (Nat.mod_eq_of_lt fits)⟩

/-- The table holds under an index the number that the index leads to. -/
theorem get_eq_ok_iff {t : Tensor α} (made : Tensor.ofData n.shape n.entries.toArray = .ok t)
    (index : List ℕ) (x : α) : t.get index = .ok x ↔ n.follow index = some (scalar x) := by
  have fits := h.exists_ofData_iff.mp ⟨t, made⟩
  rw [h.length_entries] at fits
  obtain rfl : ⟨n.shape, n.entries.toArray⟩ = t := by
    unfold Tensor.ofData at made
    split at made
    case isTrue => exact Except.ok.inj made
    case isFalse => cases made
  have holds {y : α} (found : n.follow index = some (scalar y)) :
      (Tensor.mk n.shape n.entries.toArray).get index = .ok y := by
    have within := (h.inRange_iff index).mpr ⟨y, found⟩
    have position : (Tensor.mk n.shape n.entries.toArray).position index = rank n.shape index :=
      dot_strides_of_lt fits within
    refine except_bind_eq_ok.mpr ⟨_, if_pos within, ?_⟩
    rw [Tensor.entry, position, List.getElem?_toArray, h.getElem?_entries found]
  refine ⟨fun got => ?_, holds⟩
  obtain ⟨k, offset, -⟩ := except_bind_eq_ok.mp got
  unfold Tensor.offset at offset
  split at offset
  case isTrue within =>
    obtain ⟨y, found⟩ := (h.inRange_iff index).mp within
    rw [found, Except.ok.inj ((holds found).symm.trans got)]
  case isFalse => cases offset

end IsRectangular

/-- Exactly the rectangular arrays are flattened, and there are as many entries as the shape
counts.  They make a table, provided that a word can count them, and it holds under every index
what the nested lists hold there.  To any other array the loader of a known node answers that its
shape is not the expected one. -/
theorem flatten_rectangular (n : Nested α) :
    ((∃ r, n.flatten = .ok r) ↔ n.IsRectangular) ∧
    (∀ shape entries, n.flatten = .ok (shape, entries) →
      shape = n.shape ∧ entries = n.entries ∧ entries.length = shape.prod ∧
      ((∃ t, Tensor.ofData shape entries.toArray = .ok t) ↔ entries.length < Word.count64) ∧
      ∀ t, Tensor.ofData shape entries.toArray = .ok t →
        (∀ index, inRange shape index = true ↔ ∃ x, n.follow index = some (.scalar x)) ∧
        (∀ index x, t.get index = .ok x ↔ n.follow index = some (.scalar x)) ∧
        ∀ (d : Diagram α) name i, d.indexOf name = .ok i →
          DiagramFile.tensor d name n = .ok t) ∧
    (¬ n.IsRectangular → ∀ (d : Diagram α) name i, d.indexOf name = .ok i →
      DiagramFile.tensor d name n = .error (.dimensionMismatch name (d.expectedShape i) [])) := by
  refine ⟨⟨fun ⟨r, flat⟩ => (flatten_eq_ok_iff.mp flat).1, fun h => ⟨_, h.flatten_eq⟩⟩,
    fun shape entries flat => ?_, fun ragged d name i known => ?_⟩
  · obtain ⟨h, read⟩ := flatten_eq_ok_iff.mp flat
    obtain ⟨rfl, rfl⟩ := Prod.mk.inj read
    refine ⟨rfl, rfl, h.length_entries, h.exists_ofData_iff, fun t made =>
      ⟨h.inRange_iff, h.get_eq_ok_iff made, fun d name i known => ?_⟩⟩
    refine except_bind_eq_ok.mpr ⟨i, known, ?_⟩
    rw [flat]
    exact made
  · refine except_bind_eq_error.mpr (.inr ⟨i, known, ?_⟩)
    cases flat : n.flatten with
    | ok r => exact absurd (flatten_eq_ok_iff.mp flat).1 ragged
    | error fault => rfl

open Extended

/-- Two rows, of which the first has two entries. -/
def rowsOf (second : List Exact) : Nested Exact :=
  .array [.array [.scalar (finite 0), .scalar (finite 1)], .array (second.map .scalar)]

/-- Rows of one length make a table with the second row behind the first.  A longer second row is
answered with the shape that the coin expects. -/
theorem flatten_rectangular_rows :
    (∃ t, DiagramFile.tensor coin "coin" (rowsOf [finite 2, finite 3]) = .ok t ∧
      t.get [1, 0] = .ok (finite 2)) ∧
    ¬ (rowsOf [finite 2, finite 3, finite 4]).IsRectangular ∧
    DiagramFile.tensor coin "coin" (rowsOf [finite 2, finite 3, finite 4]) =
      .error (.dimensionMismatch "coin" [2] []) := by
  have known : coin.indexOf "coin" = .ok 0 := by decide +kernel
  refine ⟨?_, ?_⟩
  · obtain ⟨-, flat, -⟩ := flatten_rectangular (rowsOf [finite 2, finite 3])
    obtain ⟨-, -, -, ⟨-, fits⟩, table⟩ := flat [2, 2] _ rfl
    obtain ⟨t, made⟩ := fits (by decide)
    obtain ⟨-, holds, loaded⟩ := table t made
    exact ⟨t, loaded coin "coin" 0 known, (holds _ _).mpr rfl⟩
  · have ragged : ¬ (rowsOf [finite 2, finite 3, finite 4]).IsRectangular := by
      intro h
      cases h [] _ rfl _ List.mem_cons_self _ (List.mem_cons_of_mem _ List.mem_cons_self)
    have expected : coin.expectedShape 0 = [2] := by decide +kernel
    have answer := (flatten_rectangular (rowsOf [finite 2, finite 3, finite 4])).2.2 ragged coin
      "coin" 0 known
    rw [expected] at answer
    exact ⟨ragged, answer⟩

end Nested

end Influence
