import Influence.Proofs.LpSections

/-!
# LP text tells the whole program

The text of a program is its sections behind one another (`toList_render`), and each of these can be
told from the rest.  So programs with one text are the same, with variables taken by name
(`sameByName_of_render`): what is split between two sections is put together by the positions of
constraints and by the names of variables.
-/

namespace Influence

open Text Program Numeral

variable {α : Type}

namespace LpText

/-! ## The whole text -/

section

variable [Scalar α] [Numeral α]

/-- The comment with the constant of the objective. -/
def constantText (x : α) : List Char :=
  if x == 0 then [] else "\\ objective constant: ".toList ++ ((write x).toList ++ ['\n'])

/-- The heading of the objective. -/
def directionText : Direction → List Char
  | .maximize => "Maximize\n".toList
  | .minimize => "Minimize\n".toList

/-- The section of the lazy constraints. -/
def delayedText : List (Line α) → List Char :=
  headed "Lazy Constraints\n" fun ls => ls.flatMap (Line.text "l")

theorem sectionText_eq_empty_iff (m : Program α) (mark : String) (isLazy : Bool) :
    sectionText m mark isLazy = "" ↔ (lines m isLazy).isEmpty = true := by
  rw [← String.toList_inj, toList_sectionText, List.isEmpty_iff]
  cases lines m isLazy with
  | nil => exact iff_of_true rfl rfl
  | cons l ls => exact iff_of_false (fun none => by cases none) (List.cons_ne_nil l ls)

theorem toList_render (m : Program α) : (render m).toList =
    "\\ ".toList ++ (m.vars.size.repr.toList ++ (" variables, ".toList ++
    (m.constraints.size.repr.toList ++ (" constraints\n".toList ++
    (constantText m.objective.constant ++ (directionText m.direction ++ (" obj:".toList ++
    ((row m m.objective).text ++ ("\n".toList ++ ("Subject To\n".toList ++
    ((lines m false).flatMap (Line.text "c") ++ (delayedText (lines m true) ++ ("Bounds\n".toList ++
    ((boundsText m).toList ++ (headed "Binaries\n" nameLines (bitNames m) ++
    "End\n".toList))))))))))))))) := by
  have constant (x : α) : (if x == 0 then "" else
      "\\ objective constant: " ++ write x ++ "\n").toList = constantText x := by
    unfold constantText
    split
    · rfl
    · rw [String.toList_append, String.toList_append, List.append_assoc]
      rfl
  have lazyRows : (if sectionText m "l" true = "" then "" else
      "Lazy Constraints\n" ++ sectionText m "l" true).toList =
      delayedText (lines m true) := by
    unfold delayedText headed
    rw [if_congr (sectionText_eq_empty_iff m "l" true) rfl rfl]
    split
    · rfl
    · rw [String.toList_append, toList_sectionText]
  unfold render
  dsimp only
  simp only [String.toList_append, constant, lazyRows, toList_exprText, toList_sectionText,
    toList_binariesText, List.append_assoc]
  cases m.direction <;> rfl

end

theorem unambiguous_constant {x x' : Float} {r r' : List Char} (hr : ∃ s, r = 'M' :: s)
    (hr' : ∃ s, r' = 'M' :: s) (same : constantText x ++ r = constantText x' ++ r') :
    (x = x' ∨ (x == Float.ofBits 0) = true ∧ (x' == Float.ofBits 0) = true) ∧ r = r' := by
  obtain ⟨s, rfl⟩ := hr
  obtain ⟨s', rfl⟩ := hr'
  unfold constantText at same
  split at same
  case isTrue zero =>
    split at same
    case isTrue zero' => exact ⟨.inr ⟨zero, zero'⟩, same⟩
    case isFalse => cases (List.cons.inj same).1
  case isFalse =>
    split at same
    case isTrue => cases (List.cons.inj same).1
    case isFalse =>
      simp only [List.append_assoc] at same
      obtain ⟨digits, rest⟩ := unambiguous_field (legible_float x) (legible_float x')
        ⟨'\n', _, rfl, rfl⟩ ⟨'\n', _, rfl, rfl⟩ (List.append_cancel_left same)
      exact ⟨.inl (written_eq digits), (List.cons.inj rest).2⟩

theorem starts_directionText (d : Direction) (r : List Char) :
    ∃ s, directionText d ++ r = 'M' :: s := by
  cases d <;> exact ⟨_, rfl⟩

theorem unambiguous_direction : Unambiguous directionText (fun _ => True) fun _ => True := by
  intro d d' r r' _ _ _ _ same
  cases d <;> cases d'
  · exact ⟨rfl, List.append_cancel_left same⟩
  · cases (List.cons.inj (List.cons.inj same).2).1
  · cases (List.cons.inj (List.cons.inj same).2).1
  · exact ⟨rfl, List.append_cancel_left same⟩

theorem startsFlush_delayedText (ls : List (Line Float)) {r : List Char}
    (hr : ∃ s, r = 'B' :: s) : StartsFlush (delayedText ls ++ r) := by
  obtain ⟨s, rfl⟩ := hr
  unfold delayedText headed
  split
  · exact ⟨'B', s, rfl, by decide⟩
  · exact ⟨'L', _, rfl, by decide⟩

theorem unambiguous_delayed : Unambiguous delayedText
    (fun ls : List (Line Float) => ∀ l ∈ ls, l.row.Good) fun r => ∃ s, r = 'B' :: s := by
  apply Unambiguous.headed
  · apply (unambiguous_lines "l").mono
    rintro _ ⟨s, rfl⟩
    exact ⟨'B', s, rfl, by decide⟩
  · rintro _ s ⟨t, rfl⟩ same
    cases (List.cons.inj same).1

theorem unambiguous_bits : Unambiguous (headed "Binaries\n" nameLines)
    (fun names => ∀ name ∈ names, IsIdentifier name) fun r => ∃ s, r = 'E' :: s := by
  apply Unambiguous.headed
  · apply unambiguous_nameLines.mono
    rintro _ ⟨s, rfl⟩
    exact ⟨'E', s, rfl, by decide⟩
  · rintro _ s ⟨t, rfl⟩ same
    cases (List.cons.inj same).1

/-! ## Programs from their texts -/

section

variable {m m' : Program Float}

theorem good_row (h : m.Exportable) {e : LinearExpr Float}
    (finite : ∀ t ∈ e.terms, t.2.isFinite = true)
    (nonzero : ∀ t ∈ e.terms, (t.2 == Float.ofBits 0) = false) : (row m e).Good := by
  unfold row
  split
  case isTrue =>
    intro name hname
    split at hname
    · cases hname
    · cases hname
      exact h.isIdentifier_exportName 0
  case isFalse filled =>
    refine ⟨?_, ?_⟩
    · intro empty
      rw [namedTerms, List.map_eq_nil_iff] at empty
      exact filled (List.isEmpty_iff.mpr empty)
    · intro t ht
      obtain ⟨t, term, rfl⟩ := List.mem_map.mp ht
      exact ⟨h.isIdentifier_exportName t.1, finite t term, nonzero t term⟩

theorem good_lines (h : m.Exportable) (isLazy : Bool) : ∀ l ∈ lines m isLazy, l.row.Good := by
  intro l hl
  obtain ⟨e, he, rfl⟩ := List.mem_map.mp hl
  have held : e.1 ∈ m.constraints :=
    Array.mem_toList_iff.mp (List.fst_mem_of_mem_zipIdx (List.mem_filter.mp he).1)
  exact good_row h (h.constraints e.1 held) (h.collected.tidy.constraints e.1 held)

theorem isRange_of_mem_ranges (h : m.Exportable) : ∀ v ∈ ranges m, IsRange v := by
  intro v hv
  obtain ⟨listed, kind⟩ := List.mem_filter.mp hv
  obtain ⟨w, hw, i, rfl⟩ := exists_of_mem_namedVariables listed
  exact ⟨of_decide_eq_true kind, h.isIdentifier_exportName i, h.lower w hw, h.upper w hw⟩

theorem isIdentifier_of_mem_bitNames (h : m.Exportable) :
    ∀ name ∈ bitNames m, IsIdentifier name := by
  intro name hname
  obtain ⟨v, hv, rfl⟩ := List.mem_map.mp hname
  obtain ⟨w, -, i, rfl⟩ := exists_of_mem_namedVariables (List.mem_filter.mp hv).1
  exact h.isIdentifier_exportName i

/-- The two sections have all constraints, each at its position. -/
theorem namedConstraints_eq (eager : lines m false = lines m' false)
    (delayed : lines m true = lines m' true) (size : m.constraints.size = m'.constraints.size) :
    m.constraints.toList.map m.namedConstraint = m'.constraints.toList.map m'.namedConstraint := by
  have sections (isLazy : Bool) : lines m isLazy = lines m' isLazy := by
    cases isLazy
    · exact eager
    · exact delayed
  apply List.ext_getElem
  · simp [size]
  · intro i hi hi'
    rw [List.length_map] at hi hi'
    rw [List.getElem_map, List.getElem_map]
    have listed : line m m.constraints.toList[i] i ∈ lines m m.constraints.toList[i].isLazy := by
      apply List.mem_map.mpr
      refine ⟨(m.constraints.toList[i], i), List.mem_filter.mpr ⟨?_, beq_self_eq_true _⟩, rfl⟩
      exact List.mk_mem_zipIdx_iff_getElem?.mpr (List.getElem?_eq_getElem hi)
    rw [sections] at listed
    obtain ⟨⟨c, k⟩, he, same⟩ := List.mem_map.mp listed
    obtain ⟨held, flag⟩ := List.mem_filter.mp he
    obtain ⟨rfl, terms, sense, rhs⟩ := Line.mk.inj same
    have there := List.mk_mem_zipIdx_iff_getElem?.mp held
    rw [List.getElem?_eq_getElem hi', Option.some_inj] at there
    rw [there, namedConstraint, namedConstraint, ← named_row m, ← named_row m', ← terms, sense, rhs,
      beq_iff_eq.mp flag]

theorem perm_namedVariables (h : m.Exportable) (h' : m'.Exportable) (bounds : ranges m = ranges m')
    (bits : bitNames m = bitNames m') : List.Perm m.namedVariables m'.namedVariables := by
  have split (m : Program Float) : List.Perm (ranges m ++
      m.namedVariables.filter fun v => v.kind = .binary) m.namedVariables := by
    have other : (m.namedVariables.filter fun v => v.kind = .binary) =
        m.namedVariables.filter fun v => !decide (v.kind = .continuous) := by
      apply List.filter_congr
      intro v _
      cases v.kind <;> rfl
    rw [other]
    exact List.filter_append_perm _ _
  have same := split m'
  rw [← bounds, bits_eq h'.collected.tidy, ← bits, ← bits_eq h.collected.tidy] at same
  exact (split m).symm.trans same

/-- Programs with the same text differ in nothing but the order of their variables. -/
theorem sameByName_of_render (h : m.Exportable) (h' : m'.Exportable) (same : render m = render m') :
    m.SameByName m' := by
  have texts := congrArg String.toList same
  rw [toList_render, toList_render, toList_boundsText h.lower, toList_boundsText h'.lower] at texts
  have counted (s : List Char) : Stops Char.isDigit (" variables, ".toList ++ s) :=
    stops_cons rfl _
  have counted' (s : List Char) : Stops Char.isDigit (" constraints\n".toList ++ s) :=
    stops_cons rfl _
  have subject (s : List Char) : EndsRow ("\n".toList ++ ("Subject To\n".toList ++ s)) :=
    ⟨'\n', 'S', _, rfl, .inl ⟨rfl, rfl⟩⟩
  have bounds (s : List Char) : ∃ t, "Bounds\n".toList ++ s = 'B' :: t := ⟨_, rfl⟩
  have bits (names : List String) :
      StartsFlush (headed "Binaries\n" nameLines names ++ "End\n".toList) := by
    unfold headed
    split
    · exact ⟨'E', _, rfl, by decide⟩
    · exact ⟨'B', _, rfl, by decide⟩
  obtain ⟨-, text⟩ := unambiguous_repr trivial trivial (counted _) (counted _)
    (List.append_cancel_left texts)
  obtain ⟨size, text⟩ := unambiguous_repr trivial trivial (counted' _) (counted' _)
    (List.append_cancel_left text)
  obtain ⟨constant, text⟩ := unambiguous_constant (starts_directionText _ _)
    (starts_directionText _ _) (List.append_cancel_left text)
  obtain ⟨direction, text⟩ := unambiguous_direction trivial trivial trivial trivial text
  obtain ⟨objective, text⟩ := unambiguous_row (good_row h h.objective h.collected.tidy.objective)
    (good_row h' h'.objective h'.collected.tidy.objective) (subject _) (subject _)
    (List.append_cancel_left text)
  obtain ⟨eager, text⟩ := unambiguous_lines "c" (good_lines h false) (good_lines h' false)
    (startsFlush_delayedText _ (bounds _)) (startsFlush_delayedText _ (bounds _))
    (List.append_cancel_left (List.append_cancel_left text))
  obtain ⟨delayed, text⟩ := unambiguous_delayed (good_lines h true) (good_lines h' true) (bounds _)
    (bounds _) text
  obtain ⟨ranged, text⟩ := unambiguous_ranges (isRange_of_mem_ranges h) (isRange_of_mem_ranges h')
    (bits _) (bits _) (List.append_cancel_left text)
  obtain ⟨named, -⟩ := unambiguous_bits (isIdentifier_of_mem_bitNames h)
    (isIdentifier_of_mem_bitNames h') ⟨_, rfl⟩ ⟨_, rfl⟩ text
  exact {
    direction := direction
    objective := by rw [← named_row m, ← named_row m', objective]
    constant := constant
    constraints := namedConstraints_eq eager delayed size
    vars := perm_namedVariables h h' ranged named }

end

/-- One program with its two variables in one order or the other. -/
def mixed (bitFirst : Bool) : Program Float :=
  let named := if bitFirst
    then ((addContinuous 0 1 (some "x")).run.run ((addBinary (some "z")).run.run .empty).2).2
    else ((addBinary (some "z")).run.run ((addContinuous 0 1 (some "x")).run.run .empty).2).2
  let total : LinearExpr Float :=
    if bitFirst then .var 1 + .term 0 (-0.5) else .var 0 + .term 1 (-0.5)
  ((constrain total .le 1 true).run.run (named.withObjective .maximize total)).2

theorem exportable_mixed (bitFirst : Bool) : (mixed bitFirst).Exportable where
  collected := by
    have plain {name : String} (h : IsPlain name) : ∀ n ∈ some name, IsPlain n := by
      intro n hn
      rwa [← Option.mem_some_iff.mp hn]
    have x := plain (⟨.of_check (by decide), by decide⟩ : IsPlain "x")
    have z := plain (⟨.of_check (by decide), by decide⟩ : IsPlain "z")
    cases bitFirst
    · exact .constrain (.withObjective (.addBinary (.addContinuous .empty 0 1 x) z) _ _) _ _ _ _
    · exact .constrain (.withObjective (.addContinuous (.addBinary .empty z) 0 1 x) _ _) _ _ _ _
  names := by
    have listed : ∀ name ∈ (mixed bitFirst).exportNames, name = "x" ∨ name = "z" := by
      cases bitFirst <;> decide +kernel
    intro name hname
    obtain rfl | rfl := listed name hname
    · exact ⟨⟨'x', [], rfl, rfl⟩, isWord_of_all (by decide)⟩
    · exact ⟨⟨'z', [], rfl, rfl⟩, isWord_of_all (by decide)⟩
  objective := by cases bitFirst <;> decide +kernel
  constraints := by cases bitFirst <;> decide +kernel
  lower := by
    have finite : ∀ v ∈ (mixed bitFirst).vars, Scalar.isFinite v.lower = true := by
      cases bitFirst <;> decide +kernel
    exact fun v hv => .inl (finite v hv)
  upper := by
    have finite : ∀ v ∈ (mixed bitFirst).vars, Scalar.isFinite v.upper = true := by
      cases bitFirst <;> decide +kernel
    exact fun v hv => .inl (finite v hv)

/-- Two programs with the same text whose variables stand in different orders. -/
theorem sameByName_mixed : render (mixed true) = render (mixed false) ∧
    (mixed true).exportNames ≠ (mixed false).exportNames ∧
    (mixed true).Exportable ∧ (mixed false).Exportable ∧
    (mixed true).SameByName (mixed false) := by
  have same : render (mixed true) = render (mixed false) := by decide +kernel
  exact ⟨same, by decide +kernel, exportable_mixed true, exportable_mixed false,
    sameByName_of_render (exportable_mixed true) (exportable_mixed false) same⟩

end LpText

end Influence
