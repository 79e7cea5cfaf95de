import Influence.Proofs.LineText
import Influence.Text.Json.Writer

/-!
# JSON on one line

The compact form of a document is one line, whatever texts are in it: a line feed inside a text is
escaped, and nothing else that is written has one (`lineFeed_notMem_compact`).
-/

namespace Influence

open Text

/-! ## Quoted texts -/

theorem digitChar_ne_lineFeed (n : ℕ) : Nat.digitChar n ≠ '\n' := by
  by_cases hn : n < 16
  · revert n
    decide
  · rw [Nat.digitChar_eq_star.mpr (Nat.le_of_not_lt hn)]
    decide

theorem Text.lineFeed_notMem_jsonChar (c : Char) : '\n' ∉ (jsonChar c).toList := by
  unfold jsonChar
  split
  iterate 5 decide
  case h_6 _ _ notLineFeed _ _ =>
    split
    · decide
    · split
      · decide
      · split
        · have digits (n : ℕ) : '\n' ≠ hexDigit n := (digitChar_ne_lineFeed n).symm
          simp [digits]
        · simpa using Ne.symm notLineFeed

theorem Text.lineFeed_notMem_json (s : String) : '\n' ∉ (json s).toList := by
  have body : '\n' ∉ (String.join (s.toList.map jsonChar)).toList := by
    rw [String.toList_join, List.mem_flatMap]
    rintro ⟨t, ht, mem⟩
    obtain ⟨c, -, rfl⟩ := List.mem_map.mp ht
    exact lineFeed_notMem_jsonChar c mem
  rw [json, String.toList_append, String.toList_append]
  simpa using body

theorem Text.lineFeed_notMem_joined {separator : String} (hs : '\n' ∉ separator.toList)
    {ts : List String} (h : ∀ t ∈ ts, '\n' ∉ t.toList) :
    '\n' ∉ (joined separator ts).toList := by
  induction ts with
  | nil => exact nofun
  | cons t ts ih =>
    obtain ⟨first, rest⟩ := List.forall_mem_cons.mp h
    cases ts with
    | nil => exact first
    | cons u us =>
      have whole : joined separator (t :: u :: us) = t ++ separator ++ joined separator (u :: us) :=
        rfl
      rw [whole, String.toList_append, String.toList_append]
      simp [first, hs, ih rest]

/-! ## Documents -/

namespace Json

theorem lineFeed_notMem_toString (i : ℤ) : '\n' ∉ (toString i).toList := by
  cases i with
  | ofNat n => exact (isField_repr n).lineFeed_notMem
  | negSucc n =>
    change '\n' ∉ ("-" ++ (n + 1).repr).toList
    rw [String.toList_append]
    simpa using (isField_repr (n + 1)).lineFeed_notMem

theorem lineFeed_notMem_atom (d : Document) : '\n' ∉ (atom d).toList := by
  cases d with
  | bool b => cases b <;> decide
  | integer i => exact lineFeed_notMem_toString i
  | real x =>
    rw [atom, floatText]
    split
    · exact (Layout.isField_text .json x).lineFeed_notMem
    · decide
  | text s => exact lineFeed_notMem_json s
  | _ => exact (by decide : '\n' ∉ "null".toList)

mutual

theorem lineFeed_notMem_compact (d : Document) : '\n' ∉ (compact d).toList := by
  cases d with
  | list items =>
    have inner := lineFeed_notMem_joined (by decide : '\n' ∉ ",".toList)
      (lineFeed_notMem_compactItems items)
    simpa [compact] using inner
  | table entries =>
    have inner := lineFeed_notMem_joined (by decide : '\n' ∉ ",".toList)
      (lineFeed_notMem_compactEntries entries)
    simpa [compact] using inner
  | _ => exact lineFeed_notMem_atom _

theorem lineFeed_notMem_compactItems (items : List Document) :
    ∀ t ∈ compactItems items, '\n' ∉ t.toList := by
  cases items with
  | nil => exact nofun
  | cons d ds =>
    exact List.forall_mem_cons.mpr
      ⟨lineFeed_notMem_compact d, lineFeed_notMem_compactItems ds⟩

theorem lineFeed_notMem_compactEntries (entries : List (String × Document)) :
    ∀ t ∈ compactEntries entries, '\n' ∉ t.toList := by
  cases entries with
  | nil => exact nofun
  | cons e es =>
    obtain ⟨k, d⟩ := e
    have entry : '\n' ∉ (Text.json k ++ ":" ++ compact d).toList := by
      rw [String.toList_append, String.toList_append]
      simp [lineFeed_notMem_json k, lineFeed_notMem_compact d]
    exact List.forall_mem_cons.mpr ⟨entry, lineFeed_notMem_compactEntries es⟩

end

end Json

end Influence
