import PlainSheet.Proofs.Evaluation.Unlimited
import PlainSheet.Proofs.Table.Position

/-! When evaluation fails. Apart from exceeded limits it fails for references to no cell only,
and reports the first one that is met when references are followed depth first and from left to
right. -/

namespace PlainSheet

namespace Evaluation

/-- A trail leads from a content to a reference. It counts, from zero, which reference of the
content is taken, and goes on in the cell that this one leads to. -/
inductive Trail (table : Table) : String → List Nat → Reference → Prop where
  | last {raw : String} {place : Nat} {r : Reference} :
      (references raw)[place]? = some r → Trail table raw [place] r
  | cons {raw target : String} {place : Nat} {places : List Nat} {r other : Reference} :
      (references raw)[place]? = some r → table.contentAt r.address = some target →
        Trail table target places other → Trail table raw (place :: places) other

/-- The first reference to no cell. References are met in the order of their trails as lists: the
ones of a content from left to right, and what is met behind one of them before the next. -/
structure FirstDangling (table : Table) (raw : String) (trail : List Nat) (r : Reference) :
    Prop where
  met : Trail table raw trail r
  outside : table.contentAt r.position = none
  first : ∀ other r', Trail table raw other r' → table.contentAt r'.position = none →
    ¬other < trail

/-- All references that are met from a content name positions of cells. -/
def Inside (table : Table) (raw : String) : Prop :=
  ∀ trail r, Trail table raw trail r → ∃ content, table.contentAt r.position = some content

/-- A reference names the position of a cell, and so do all that are met behind it. -/
def LeadsInside (table : Table) (r : Reference) : Prop :=
  (∃ content, table.contentAt r.position = some content) ∧
    ∀ target, table.contentAt r.address = some target → Inside table target

variable {table : Table} {raw target text : String} {r other : Reference}
  {before after : List Reference} {trail : List Nat} {exceeded cause : SheetError}

theorem contentAt_position (hTable : table.BelowMaxIndex) (h : r ∈ references raw) :
    table.contentAt r.position = table.contentAt r.address := by
  obtain ⟨tree, rfl, -⟩ := exists_tree_of_mem_references h
  rw [tree.address_eq_saturate, hTable.contentAt_saturate]

theorem Trail.exists_path (h : Trail table raw trail r) :
    ∃ cells last, Path table raw cells last ∧ r ∈ references last := by
  induction h with
  | @last raw place r hPlace => exact ⟨[], raw, .nil raw, List.mem_of_getElem? hPlace⟩
  | @cons raw target place places r other hPlace hTarget _ ih =>
      obtain ⟨cells, last, hPath, hOther⟩ := ih
      exact ⟨r.address :: cells, last, .cons (List.mem_of_getElem? hPlace) hTarget hPath, hOther⟩

/-- A trail that starts with a reference that leads inside ends inside. -/
theorem Trail.inside {place : Nat} {places : List Nat}
    (h : Trail table raw (place :: places) other) (hPlace : (references raw)[place]? = some r)
    (hInside : LeadsInside table r) : ∃ content, table.contentAt other.position = some content := by
  cases h with
  | last hOther =>
      rw [hPlace, Option.some.injEq] at hOther
      exact hOther ▸ hInside.1
  | cons hSame hTarget hRest =>
      rw [hPlace, Option.some.injEq] at hSame
      subst hSame
      exact hInside.2 _ hTarget places other hRest

theorem inside_iff : Inside table raw ↔ ∀ r ∈ references raw, LeadsInside table r := by
  constructor
  · intro h r hReference
    obtain ⟨place, hPlace⟩ := List.mem_iff_getElem?.mp hReference
    refine ⟨h [place] r (.last hPlace), fun target hTarget trail other hTrail => ?_⟩
    exact h (place :: trail) other (.cons hPlace hTarget hTrail)
  · intro h trail other hTrail
    cases hTrail with
    | last hPlace => exact (h other (List.mem_of_getElem? hPlace)).1
    | cons hPlace hTarget hRest => exact (h _ (List.mem_of_getElem? hPlace)).2 _ hTarget _ _ hRest

/-! ### The first reference to no cell -/

/-- Where all references before one lead inside, no trail to the outside comes before it. -/
theorem le_of_trail {place : Nat} {places : List Nat}
    (hReferences : references raw = before ++ after)
    (hBefore : ∀ earlier ∈ before, LeadsInside table earlier)
    (hTrail : Trail table raw (place :: places) other)
    (hOutside : table.contentAt other.position = none) : before.length ≤ place := by
  by_contra hPlace
  have hLess : place < before.length := by omega
  have hTaken : (references raw)[place]? = some before[place] := by
    rw [hReferences, List.getElem?_append_left hLess, List.getElem?_eq_getElem hLess]
  obtain ⟨content, hContent⟩ := hTrail.inside hTaken (hBefore _ (List.getElem_mem hLess))
  rw [hOutside] at hContent
  cases hContent

namespace FirstDangling

theorem here (hReferences : references raw = before ++ r :: after)
    (hBefore : ∀ earlier ∈ before, LeadsInside table earlier)
    (hOutside : table.contentAt r.position = none) :
    FirstDangling table raw [before.length] r where
  met := .last (by simp [hReferences])
  outside := hOutside
  first trail other hTrail hNone hLess := by
    cases trail with
    | nil => cases hTrail
    | cons place places =>
        have hPlace := le_of_trail hReferences hBefore hTrail hNone
        rcases List.cons_lt_cons_iff.mp hLess with hLess | ⟨-, hLess⟩
        · omega
        · exact List.not_lt_nil _ hLess

theorem inside (hReferences : references raw = before ++ r :: after)
    (hBefore : ∀ earlier ∈ before, LeadsInside table earlier)
    (hInside : ∃ content, table.contentAt r.position = some content)
    (hTarget : table.contentAt r.address = some target)
    (h : FirstDangling table target trail other) :
    FirstDangling table raw (before.length :: trail) other := by
  have hTaken : (references raw)[before.length]? = some r := by simp [hReferences]
  refine ⟨.cons hTaken hTarget h.met, h.outside, fun trail' r' hTrail hNone hLess => ?_⟩
  cases trail' with
  | nil => cases hTrail
  | cons place places =>
      have hPlace := le_of_trail hReferences hBefore hTrail hNone
      rcases List.cons_lt_cons_iff.mp hLess with hBefore | ⟨rfl, hBehind⟩
      · omega
      · -- Both trails take the same reference, so the order is that of what is met behind it.
        cases hTrail with
        | last hSame =>
            rw [hTaken, Option.some.injEq] at hSame
            subst hSame
            obtain ⟨content, hContent⟩ := hInside
            rw [hNone] at hContent
            cases hContent
        | cons hSame hOther hRest =>
            rw [hTaken, Option.some.injEq] at hSame
            subst hSame
            rw [hTarget, Option.some.injEq] at hOther
            subst hOther
            exact h.first places r' hRest hNone hBehind

end FirstDangling

/-- What shows something leads inside only. -/
theorem leadsInside_of_shownAt {inside : String → Except SheetError String}
    (hTable : table.BelowMaxIndex) (hReference : r ∈ references raw)
    (hInside : ∀ target shown, inside target = .ok shown → Inside table target)
    (h : shownAt table inside r = .ok text) : LeadsInside table r := by
  obtain ⟨target, hTarget, hShows⟩ := shownAt_ok_cases h
  refine ⟨⟨target, (contentAt_position hTable hReference).trans hTarget⟩, fun taken hTaken => ?_⟩
  rw [hTarget, Option.some.injEq] at hTaken
  subst hTaken
  rcases hShows with ⟨n, hNumeral, -⟩ | ⟨-, hShown⟩
  · rw [inside_iff, references_of_isBare (by simp [isBare, hNumeral])]
    simp
  · exact hInside target text hShown

theorem inside_of_shownWithin {levels : Nat} (hTable : table.BelowMaxIndex)
    (h : shownWithin table exceeded levels raw = .ok text) : Inside table raw := by
  induction levels generalizing raw text with
  | zero => cases h
  | succ levels ih =>
      rw [inside_iff]
      intro r hReference
      obtain ⟨shown, hShown⟩ := exists_shownAt_of_shown h r hReference
      exact leadsInside_of_shownAt hTable hReference (fun _ _ => ih) hShown

/-- An error that is not the one for exceeded levels names the first reference to no cell. -/
theorem exists_firstDangling_of_error {levels : Nat} (hTable : table.BelowMaxIndex)
    (hCause : cause ≠ exceeded) (h : shownWithin table exceeded levels raw = .error cause) :
    ∃ trail r, FirstDangling table raw trail r ∧ cause = .missingCell r.text := by
  induction levels generalizing raw with
  | zero =>
      cases h
      exact absurd rfl hCause
  | succ levels ih =>
      obtain ⟨before, r, after, hReferences, hShows, hShown⟩ := exists_first_of_shown_error h
      have hMem : ∀ earlier ∈ before ++ [r], earlier ∈ references raw := by
        intro earlier hEarlier
        rw [hReferences]
        simp only [List.mem_append, List.mem_singleton] at hEarlier
        simp only [List.mem_append, List.mem_cons]
        tauto
      have hBefore : ∀ earlier ∈ before, LeadsInside table earlier := by
        intro earlier hEarlier
        obtain ⟨text, hText⟩ := hShows earlier hEarlier
        exact leadsInside_of_shownAt hTable (hMem earlier (by simp [hEarlier]))
          (fun _ _ => inside_of_shownWithin hTable) hText
      have hPosition := contentAt_position hTable (hMem r (by simp))
      rcases shownAt_error_cases hShown with ⟨hNone, hName⟩ | ⟨target, hTarget, -, hInside⟩
      · exact ⟨_, r, .here hReferences hBefore (hPosition.trans hNone), hName⟩
      · obtain ⟨trail, other, hFirst, hName⟩ := ih hInside
        exact ⟨_, other,
          hFirst.inside hReferences hBefore ⟨target, hPosition.trans hTarget⟩ hTarget, hName⟩

/-! ### Evaluation without a limit -/

/-- Levels are exceeded along a path through that many cells. -/
theorem passesThrough_of_exceeded {levels limit : Nat}
    (h : shownWithin table (.chainTooLong limit) levels raw = .error (.chainTooLong limit)) :
    PassesThrough table raw levels := by
  induction levels generalizing raw with
  | zero => exact .zero table raw
  | succ levels ih =>
      obtain ⟨r, hReference, hShown⟩ := exists_reference_of_shown_error h
      rcases shownAt_error_cases hShown with ⟨-, hName⟩ | ⟨target, hTarget, hNumeral, hInside⟩
      · cases hName
      · rw [PassesThrough.succ_iff]
        exact ⟨r, hReference, target, hTarget, by simp [isBare, hNumeral], ih hInside⟩

end Evaluation

namespace Table

open Evaluation

variable {table : Table} {raw : String}

theorem reachesCycle_of_endless (h : table.evaluate none raw = none) :
    ReachesCycle table raw := by
  rcases table.evaluate_none_cases raw with ⟨result, hEvaluate, -⟩ | ⟨-, hExceeds⟩
  · cases hEvaluate.symm.trans h
  · exact (passesThrough_of_exceeded (hExceeds (.chainTooLong 0))).reachesCycle

theorem exists_firstDangling_of_evaluate_some {limit : Nat} {cause : SheetError}
    (hTable : table.BelowMaxIndex) (h : table.evaluate (some limit) raw = some (.error cause)) :
    cause = .chainTooLong limit ∨
      ∃ trail r, FirstDangling table raw trail r ∧ cause = .missingCell r.text := by
  rw [evaluate_some] at h
  by_cases hCause : cause = .chainTooLong limit
  · exact .inl hCause
  · exact .inr (exists_firstDangling_of_error hTable hCause (Option.some.inj h))

/-- What evaluation without a limit ends with, a high enough limit keeps. -/
theorem exists_firstDangling_of_evaluate_none {cause : SheetError} (hTable : table.BelowMaxIndex)
    (h : table.evaluate none raw = some (.error cause)) :
    ∃ trail r, FirstDangling table raw trail r ∧ cause = .missingCell r.text := by
  have hEnds := evaluate_none_eq_some_iff.mp h
  have hShown := evaluate_some_of_ends hEnds (Nat.le_refl table.cellCount)
  rcases exists_firstDangling_of_evaluate_some hTable hShown with rfl | hDangling
  · exact absurd rfl (hEnds.ne_chainTooLong _)
  · exact hDangling

theorem evaluate_none_isOk_iff (hTable : table.BelowMaxIndex) (hCycle : ¬ReachesCycle table raw) :
    (∃ value, table.evaluate none raw = some (.ok value)) ↔ Inside table raw := by
  constructor
  · intro hValue
    obtain ⟨value, hValue⟩ := hValue
    rw [evaluate_eq_ok_iff_shownWithin (.chainTooLong 0)] at hValue
    exact inside_of_shownWithin hTable hValue
  · intro hInside
    rcases hEvaluate : table.evaluate none raw with _ | cause | value
    · exact absurd (reachesCycle_of_endless hEvaluate) hCycle
    · obtain ⟨trail, r, hFirst, -⟩ := exists_firstDangling_of_evaluate_none hTable hEvaluate
      obtain ⟨content, hContent⟩ := hInside trail r hFirst.met
      cases hFirst.outside.symm.trans hContent
    · exact ⟨value, rfl⟩

/-- Evaluation fails when its limit is exceeded, or else for the first reference to no cell, as it
is written in the content or in a cell that is reached from there. There is neither a value nor a
failure only without a limit, where evaluation has no end. On contents that reach no cycle it then
has a value exactly if all references that are met name positions of cells, and otherwise reports
the first one that does not. -/
theorem evaluate_failure_exact (hTable : table.BelowMaxIndex) (raw : String) :
    (∀ limit cause, table.evaluate limit raw = some (.error cause) →
      (∃ n, limit = some n ∧ cause = .chainTooLong n) ∨
      ∃ trail r, cause = .missingCell r.text ∧ FirstDangling table raw trail r ∧
        ∃ cells last, Path table raw cells last ∧ r ∈ references last ∧
          r.chars <:+: last.toList) ∧
    (∀ limit, table.evaluate limit raw = none ↔
      limit = none ∧ ¬∃ result, Ends table raw result) ∧
    (¬ReachesCycle table raw →
      ((∃ value, table.evaluate none raw = some (.ok value)) ↔ Inside table raw) ∧
      (¬Inside table raw → ∃ trail r, FirstDangling table raw trail r ∧
        table.evaluate none raw = some (.error (.missingCell r.text)))) := by
  refine ⟨fun limit cause h => ?_, fun limit => evaluate_eq_none_iff, fun hCycle => ?_⟩
  · have hCases : (∃ n, limit = some n ∧ cause = .chainTooLong n) ∨
        ∃ trail r, FirstDangling table raw trail r ∧ cause = .missingCell r.text := by
      cases limit with
      | some n => exact (exists_firstDangling_of_evaluate_some hTable h).imp_left (⟨n, rfl, ·⟩)
      | none => exact .inr (exists_firstDangling_of_evaluate_none hTable h)
    rcases hCases with hLimit | ⟨trail, r, hFirst, hCause⟩
    · exact .inl hLimit
    · obtain ⟨cells, last, hPath, hReference⟩ := hFirst.met.exists_path
      obtain ⟨-, -, hWritten⟩ := exists_tree_of_mem_references hReference
      exact .inr ⟨trail, r, hCause, hFirst, cells, last, hPath, hReference, hWritten⟩
  · have hOk := evaluate_none_isOk_iff hTable hCycle
    refine ⟨hOk, fun hOutside => ?_⟩
    rcases hEvaluate : table.evaluate none raw with _ | cause | value
    · exact absurd (reachesCycle_of_endless hEvaluate) hCycle
    · obtain ⟨trail, r, hFirst, rfl⟩ := exists_firstDangling_of_evaluate_none hTable hEvaluate
      exact ⟨trail, r, hFirst, rfl⟩
    · exact absurd (hOk.mp ⟨value, hEvaluate⟩) hOutside

theorem evaluate_failure_exact_on_nested_operand :
    let table : Table := ⟨[["=B1", "=ADD(2,ZZZZZZZZZZZZZZZ1)"]]⟩
    table.BelowMaxIndex ∧ ¬ReachesCycle table "=ADD(A1,C9)" ∧
      table.evaluate none "=ADD(A1,C9)" = some (.error (.missingCell "ZZZZZZZZZZZZZZZ1")) ∧
      ∃ trail r, FirstDangling table "=ADD(A1,C9)" trail r ∧ r.text = "ZZZZZZZZZZZZZZZ1" := by
  intro table
  have hTable : table.BelowMaxIndex := ⟨by decide, by decide⟩
  have hLevels : shownWithin table (.chainTooLong 0) (table.cellCount + 1) "=ADD(A1,C9)" =
      .error (.missingCell "ZZZZZZZZZZZZZZZ1") := by decide +kernel
  have hShown : table.evaluate none "=ADD(A1,C9)" =
      some (.error (.missingCell "ZZZZZZZZZZZZZZZ1")) := evaluate_of_shownWithin hLevels (by simp)
  let far : Reference := ⟨"ZZZZZZZZZZZZZZZ".toList, ['1']⟩
  let a : Reference := ⟨['A'], ['1']⟩
  let b : Reference := ⟨['B'], ['1']⟩
  let c : Reference := ⟨['C'], ['9']⟩
  have hReferences : references "=ADD(A1,C9)" = [a, c] ∧ references "=B1" = [b] ∧
      references "=ADD(2,ZZZZZZZZZZZZZZZ1)" = [far] := by decide +kernel
  have hCells : table.contentAt a.address = some "=B1" ∧ table.contentAt c.address = none ∧
      table.contentAt b.address = some "=ADD(2,ZZZZZZZZZZZZZZZ1)" ∧
      table.contentAt far.address = none := by decide +kernel
  have hNoCycle : ¬ReachesCycle table "=ADD(A1,C9)" := by
    intro hCycle
    have hPasses := hCycle.passesThrough 3
    simp [PassesThrough.succ_iff, hReferences, hCells] at hPasses
  obtain ⟨-, -, hExact⟩ := evaluate_failure_exact hTable "=ADD(A1,C9)"
  obtain ⟨hOk, hFirst⟩ := hExact hNoCycle
  have hOutside : ¬Inside table "=ADD(A1,C9)" := by
    intro hInside
    obtain ⟨value, hValue⟩ := hOk.mpr hInside
    rw [hShown] at hValue
    cases hValue
  obtain ⟨trail, r, hDangling, hEvaluate⟩ := hFirst hOutside
  rw [hShown, Option.some.injEq, Except.error.injEq, SheetError.missingCell.injEq] at hEvaluate
  exact ⟨hTable, hNoCycle, hShown, trail, r, hDangling, hEvaluate.symm⟩

end Table

end PlainSheet
