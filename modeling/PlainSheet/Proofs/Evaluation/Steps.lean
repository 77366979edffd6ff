import PlainSheet.Proofs.Evaluation.Paths
import PlainSheet.Proofs.Evaluation.Sequence

/-! One step of evaluation. What a content shows comes from what its references show, and what
a reference shows from the content that it leads to. -/

namespace PlainSheet

theorem Table.follow_of_contentAt_none {table : Table} {r : Reference}
    (h : table.contentAt r.address = none) : table.follow r = .error (.missingCell r.text) := by
  rw [contentAt] at h
  rw [follow, h]

namespace Evaluation

variable {table : Table} {inside : String → Except SheetError String} {raw text : String}
  {cause : SheetError}

theorem shownAt_of_none {r : Reference} (h : table.contentAt r.address = none) :
    shownAt table inside r = .error (.missingCell r.text) := by
  rw [shownAt, Table.follow_of_contentAt_none h]

theorem shownAt_of_bare {r : Reference} {target : String} {n : Numeral}
    (h : table.contentAt r.address = some target) (hNumeral : Numeral.ofString? target = some n) :
    shownAt table inside r = .ok n.value.display := by
  simp only [shownAt, Table.follow_of_contentAt h, shownTarget, hNumeral]

theorem shownAt_of_nested {r : Reference} {target : String}
    (h : table.contentAt r.address = some target) (hNumeral : Numeral.ofString? target = none) :
    shownAt table inside r = inside target := by
  simp only [shownAt, Table.follow_of_contentAt h, shownTarget, hNumeral]

theorem operandValue_numeral (n : Numeral) :
    operandValue table inside (.numeral n) = .ok (Binary64.ofShown n.value.display) :=
  rfl

theorem operandValue_of_ok {r : Reference} (h : shownAt table inside r = .ok text) :
    operandValue table inside (.cell r) = .ok (Binary64.ofShown text) := by
  rw [operandValue, h, Except.map]

theorem operandValue_eq_error_iff {r : Reference} :
    operandValue table inside (.cell r) = .error cause ↔
      shownAt table inside r = .error cause :=
  map_eq_error_iff

/-- A reference leads to no cell, to a number by itself, or to a content that is evaluated. -/
theorem reference_cases (table : Table) (r : Reference) :
    table.contentAt r.address = none ∨
      (∃ target n, table.contentAt r.address = some target ∧
        Numeral.ofString? target = some n) ∨
      ∃ target, table.contentAt r.address = some target ∧ Numeral.ofString? target = none := by
  cases hTarget : table.contentAt r.address with
  | none => exact .inl rfl
  | some target =>
      cases hNumeral : Numeral.ofString? target with
      | some n => exact .inr (.inl ⟨target, n, rfl, hNumeral⟩)
      | none => exact .inr (.inr ⟨target, rfl, hNumeral⟩)

theorem shownAt_error_cases {r : Reference} (h : shownAt table inside r = .error cause) :
    (table.contentAt r.address = none ∧ cause = .missingCell r.text) ∨
      ∃ target, table.contentAt r.address = some target ∧ Numeral.ofString? target = none ∧
        inside target = .error cause := by
  rcases reference_cases table r with hNone | ⟨target, n, hTarget, hNumeral⟩ |
    ⟨target, hTarget, hNumeral⟩
  · rw [shownAt_of_none hNone] at h
    cases h
    exact .inl ⟨hNone, rfl⟩
  · rw [shownAt_of_bare hTarget hNumeral] at h
    cases h
  · rw [shownAt_of_nested hTarget hNumeral] at h
    exact .inr ⟨target, hTarget, hNumeral, h⟩

theorem shownAt_ok_cases {r : Reference} (h : shownAt table inside r = .ok text) :
    ∃ target, table.contentAt r.address = some target ∧
      ((∃ n, Numeral.ofString? target = some n ∧ text = n.value.display) ∨
        Numeral.ofString? target = none ∧ inside target = .ok text) := by
  rcases reference_cases table r with hNone | ⟨target, n, hTarget, hNumeral⟩ |
    ⟨target, hTarget, hNumeral⟩
  · rw [shownAt_of_none hNone] at h
    cases h
  · rw [shownAt_of_bare hTarget hNumeral] at h
    cases h
    exact ⟨target, hTarget, .inl ⟨n, hNumeral, rfl⟩⟩
  · rw [shownAt_of_nested hTarget hNumeral] at h
    exact ⟨target, hTarget, .inr ⟨hNumeral, h⟩⟩

/-- A content shows the display of a number, itself when it is text, or what its reference
shows. -/
theorem eq_display_or_text_of_shown (h : shown table inside raw = .ok text) :
    (∃ value : Binary64, text = value.display) ∨
      (text = raw ∧ Content.ofString raw = .text raw) ∨
      ∃ r ∈ references raw, shownAt table inside r = .ok text := by
  rw [shown] at h
  split at h
  next n hContent =>
    cases h
    exact .inl ⟨n.value, rfl⟩
  next r hContent =>
    have hReference : r ∈ references raw := by simp [references, hContent]
    exact .inr (.inr ⟨r, hReference, h⟩)
  next f hContent =>
    obtain ⟨values, -, rfl⟩ := map_eq_ok_iff.mp h
    exact .inl ⟨f.function.fold values, rfl⟩
  next shown hContent =>
    cases h
    have hSame := (Content.ofString_eq_text_iff.mp hContent).1
    subst hSame
    exact .inr (.inl ⟨rfl, hContent⟩)

/-- The error of a content is that of the first of its references that shows nothing. -/
theorem exists_first_of_shown_error (h : shown table inside raw = .error cause) :
    ∃ before r after, references raw = before ++ r :: after ∧
      (∀ earlier ∈ before, ∃ text, shownAt table inside earlier = .ok text) ∧
      shownAt table inside r = .error cause := by
  rw [shown] at h
  split at h
  next n hContent => cases h
  next r hContent => exact ⟨[], r, [], by simp [references, hContent], by simp, h⟩
  next f hContent =>
    obtain ⟨front, operand, back, hOperands, hFront, hOperand⟩ :=
      exists_of_mapM_eq_error (map_eq_error_iff.mp h)
    cases operand with
    | numeral n => cases hOperand
    | cell r =>
        refine ⟨front.filterMap operandReference?, r, back.filterMap operandReference?, ?_, ?_,
          operandValue_eq_error_iff.mp hOperand⟩
        · simp [references, hContent, hOperands, operandReference?]
        · intro earlier hEarlier
          obtain ⟨operand, hMem, hReference⟩ := List.mem_filterMap.mp hEarlier
          rw [operandReference?_eq_some_iff] at hReference
          subst hReference
          obtain ⟨value, hValue⟩ := hFront _ hMem
          obtain ⟨text, hText, -⟩ := map_eq_ok_iff.mp hValue
          exact ⟨text, hText⟩
  next => cases h

/-- Every error of a content is that of one of its references. -/
theorem exists_reference_of_shown_error (h : shown table inside raw = .error cause) :
    ∃ r ∈ references raw, shownAt table inside r = .error cause := by
  obtain ⟨before, r, after, hReferences, -, hShown⟩ := exists_first_of_shown_error h
  exact ⟨r, by simp [hReferences], hShown⟩

/-- A content that shows something has references that all do. -/
theorem exists_shownAt_of_shown (h : shown table inside raw = .ok text) :
    ∀ r ∈ references raw, ∃ shown, shownAt table inside r = .ok shown := by
  rw [shown] at h
  split at h
  next n hContent => simp [references, hContent]
  next r hContent => simpa [references, hContent] using ⟨text, h⟩
  next f hContent =>
    intro r hReference
    rw [mem_references_of_formula hContent] at hReference
    obtain ⟨values, hValues, -⟩ := map_eq_ok_iff.mp h
    obtain ⟨place, hPlace⟩ := List.mem_iff_getElem?.mp hReference
    obtain ⟨value, -, hValue⟩ := getElem?_of_forall₂ (mapM_eq_ok_iff.mp hValues) hPlace
    obtain ⟨shown, hShown, -⟩ := map_eq_ok_iff.mp hValue
    exact ⟨shown, hShown⟩
  next shown hContent => simp [references, hContent]

/-- What a content shows depends on what its references show alone. -/
theorem shown_congr {table' : Table} {inside' : String → Except SheetError String}
    (h : ∀ r ∈ references raw, shownAt table inside r = shownAt table' inside' r) :
    shown table inside raw = shown table' inside' raw := by
  rw [shown, shown]
  cases hContent : Content.ofString raw with
  | number n => rfl
  | reference r => exact h r (by simp [references, hContent])
  | formula f =>
      have hOperands : ∀ operand ∈ f.operands,
          operandValue table inside operand = operandValue table' inside' operand := by
        intro operand hOperand
        cases operand with
        | numeral n => rfl
        | cell r =>
            have hReference := h r ((mem_references_of_formula hContent).mpr hOperand)
            rw [operandValue, operandValue, hReference]
      simp only [mapM_congr hOperands]
  | text shown => rfl

end Evaluation

namespace Table

open Evaluation

/-- A limit on references allows one level more, that of the content that is asked for. -/
theorem evaluate_some (table : Table) (limit : Nat) (raw : String) :
    table.evaluate (some limit) raw =
      some (shownWithin table (.chainTooLong limit) (limit + 1) raw) := by
  rcases table.evaluateTo_cases (table.bound (some limit)) raw with
    ⟨result, hEvaluate, hShown⟩ | ⟨hEvaluate, hExceeds⟩
  · exact hEvaluate.trans (congrArg some (hShown _).symm)
  · exact hEvaluate.trans (congrArg some (hExceeds _).symm)

/-- Without a limit there is an answer if levels for every cell suffice, and otherwise none. -/
theorem evaluate_none_cases (table : Table) (raw : String) :
    (∃ result, table.evaluate none raw = some result ∧
      ∀ exceeded, shownWithin table exceeded (table.cellCount + 1) raw = result) ∨
    (table.evaluate none raw = none ∧
      ∀ exceeded, shownWithin table exceeded (table.cellCount + 1) raw = .error exceeded) :=
  table.evaluateTo_cases _ raw

theorem levels_bound (table : Table) (limit : Option Nat) :
    (table.bound limit).levels = limit.getD table.cellCount + 1 := by
  cases limit <;> rfl

variable {table : Table} {limit : Option Nat} {raw text : String}

/-- What is shown within the levels of a limit, or without one within levels for every cell, is
the answer unless they are exceeded. -/
theorem evaluate_of_shownWithin {exceeded : SheetError} {result : Except SheetError String}
    (h : shownWithin table exceeded (limit.getD table.cellCount + 1) raw = result)
    (hKept : result ≠ .error exceeded) : table.evaluate limit raw = some result := by
  rw [← levels_bound] at h
  rcases table.evaluateTo_cases (table.bound limit) raw with
    ⟨shown, hEvaluate, hShown⟩ | ⟨-, hExceeds⟩
  · exact hEvaluate.trans (congrArg some ((hShown exceeded).symm.trans h))
  · exact absurd (h.symm.trans (hExceeds exceeded)) hKept

/-- A value does not depend on what the error for an exceeded limit would be. -/
theorem evaluate_eq_ok_iff_shownWithin (exceeded : SheetError) :
    table.evaluate limit raw = some (.ok text) ↔
      shownWithin table exceeded (limit.getD table.cellCount + 1) raw = .ok text := by
  refine ⟨fun h => ?_, fun h => evaluate_of_shownWithin h (by simp)⟩
  rw [← levels_bound]
  rcases table.evaluateTo_cases (table.bound limit) raw with
    ⟨shown, hEvaluate, hShown⟩ | ⟨hEvaluate, -⟩
  · cases hEvaluate.symm.trans h
    exact hShown exceeded
  · obtain ⟨_, -, hError⟩ := Option.map_eq_some_iff.mp (hEvaluate.symm.trans h)
    cases hError

end Table

end PlainSheet
