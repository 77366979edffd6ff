import PlainSheet.Proofs.Address.Display
import PlainSheet.Proofs.Evaluation.Results
import PlainSheet.Proofs.Formula.Check
import PlainSheet.Sheet.Basic

/-! What a whole sheet shows and what its cells show one by one. -/

namespace PlainSheet

open Evaluation

/-- The order of reading: row by row, and from left to right in a row. -/
def Address.Precedes (first second : Address) : Prop :=
  first.row < second.row ∨ first.row = second.row ∧ first.column < second.column

namespace Table

/-- All rows and columns have indices that addresses can name. -/
def Indexed (table : Table) : Prop :=
  table.rows.length ≤ Address.maxIndex ∧ ∀ cells ∈ table.rows, cells.length ≤ Address.maxIndex

variable {table : Table} {address : Address} {raw : String}

/-- A cell is found under the text that its address is written as. -/
theorem cellAt_display (hIndexed : table.Indexed) (h : table.contentAt address = some raw) :
    table.cellAt address.display = .ok raw := by
  obtain ⟨row, column, cells, rfl, hCells, hContent⟩ := contentAt_eq_some_iff.mp h
  obtain ⟨hRow, hTaken⟩ := List.getElem?_eq_some_iff.mp hCells
  obtain ⟨hColumn, -⟩ := List.getElem?_eq_some_iff.mp hContent
  have hRows := hIndexed.1
  have hColumns := hIndexed.2 cells (hTaken ▸ List.getElem_mem hRow)
  obtain ⟨r, hRead, hAddress⟩ :=
    Reference.ofString?_display ⟨row + 1, column + 1⟩ (Nat.succ_pos row) (Nat.succ_pos column)
  have hSameRow : Address.saturate (row + 1) = row + 1 := Address.saturate_of_le (by omega)
  have hSameColumn : Address.saturate (column + 1) = column + 1 :=
    Address.saturate_of_le (by omega)
  simp only [hSameRow, hSameColumn] at hAddress
  rw [cellAt, hRead]
  exact follow_of_contentAt (hAddress ▸ h)

/-- Rows whose cells are related have cells at the same addresses. -/
theorem contentAt_of_forall₂ {related : String → String → Prop} {shown : List (List String)}
    (hRows : List.Forall₂ (List.Forall₂ related) table.rows shown)
    (h : table.contentAt address = some raw) :
    ∃ value, (Table.mk shown).contentAt address = some value ∧ related raw value := by
  obtain ⟨row, column, cells, rfl, hCells, hContent⟩ := contentAt_eq_some_iff.mp h
  obtain ⟨others, hOthers, hRow⟩ := getElem?_of_forall₂ hRows hCells
  obtain ⟨value, hValue, hRelated⟩ := getElem?_of_forall₂ hRow hContent
  exact ⟨value, contentAt_eq_some_iff.mpr ⟨row, column, others, rfl, hOthers, hValue⟩, hRelated⟩

end Table

namespace Sheet

variable {sheet : Sheet} {address : Address} {raw : String}

theorem get_display_of_ok (hIndexed : sheet.table.Indexed)
    (h : sheet.table.contentAt address = some raw) (hContent : Check.content raw = .ok ()) :
    sheet.get address.display = sheet.evaluate raw := by
  simp only [get, cellAt, Table.cellAt_display hIndexed h, hContent]

theorem get_display_of_error (hIndexed : sheet.table.Indexed)
    (h : sheet.table.contentAt address = some raw) {cause : SheetError}
    (hContent : Check.content raw = .error cause) :
    sheet.get address.display = some (.error cause) := by
  simp only [get, cellAt, Table.cellAt_display hIndexed h, hContent]

theorem evaluatedRows_eq (sheet : Sheet) :
    sheet.evaluatedRows = inOrder (inOrder sheet.evaluate) sheet.table.rows :=
  sheet.table.evaluateRows_eq _

theorem evaluatedRows_eq_ok_iff {shown : List (List String)} :
    sheet.evaluatedRows = some (.ok shown) ↔
      List.Forall₂ (List.Forall₂ fun raw value => sheet.evaluate raw = some (.ok value))
        sheet.table.rows shown := by
  simp only [evaluatedRows_eq, inOrder_eq_ok_iff]

theorem map_length_of_evaluatedRows {shown : List (List String)}
    (h : sheet.evaluatedRows = some (.ok shown)) :
    shown.map List.length = sheet.table.rows.map List.length := by
  have hLengths : List.Forall₂ (· = ·) (sheet.table.rows.map List.length)
      (shown.map List.length) := by
    rw [List.forall₂_map_left_iff, List.forall₂_map_right_iff]
    exact (evaluatedRows_eq_ok_iff.mp h).imp fun _ _ hRow => hRow.length_eq
  rw [List.forall₂_eq_eq_eq] at hLengths
  exact hLengths.symm

/-- A whole sheet comes to an error, or to nothing, as its first cell does that has no value. -/
theorem exists_first_of_evaluatedRows (stop : Option SheetError)
    (h : sheet.evaluatedRows = stop.map .error) :
    ∃ address raw, sheet.table.contentAt address = some raw ∧
      sheet.evaluate raw = stop.map .error ∧
      ∀ earlier content, sheet.table.contentAt earlier = some content →
        earlier.Precedes address → ∃ value, sheet.evaluate content = some (.ok value) := by
  rw [evaluatedRows_eq] at h
  obtain ⟨above, cells, below, hRows, hAbove, hCells⟩ := exists_of_inOrder stop h
  obtain ⟨left, raw, right, rfl, hLeft, hRaw⟩ := exists_of_inOrder stop hCells
  refine ⟨⟨above.length + 1, left.length + 1⟩, raw, ?_, hRaw, ?_⟩
  · rw [Table.contentAt_eq_some_iff]
    exact ⟨_, _, left ++ raw :: right, rfl, by simp [hRows], by simp⟩
  · intro earlier content hContent hPrecedes
    obtain ⟨row, column, others, rfl, hOthers, hContent⟩ := Table.contentAt_eq_some_iff.mp hContent
    rcases hPrecedes with hRow | ⟨hRow, hColumn⟩
    · have hRow : row < above.length := by simpa using hRow
      rw [hRows, List.getElem?_append_left hRow] at hOthers
      obtain ⟨values, hValues⟩ := hAbove others (List.mem_of_getElem? hOthers)
      obtain ⟨value, -, hValue⟩ := getElem?_of_forall₂ (inOrder_eq_ok_iff.mp hValues) hContent
      exact ⟨value, hValue⟩
    · have hRow : row = above.length := by simpa using hRow
      have hColumn : column < left.length := by simpa using hColumn
      have hSame : others = left ++ raw :: right := by simpa [hRows, hRow, eq_comm] using hOthers
      rw [hSame, List.getElem?_append_left hColumn] at hContent
      exact hLeft content (List.mem_of_getElem? hContent)

theorem evaluate_of_text (h : Content.ofString raw = .text raw) :
    sheet.evaluate raw = some (.ok raw) :=
  Table.evaluate_of_text h

/-- A content that has no value passes the checks, since a text has one. -/
theorem content_of_evaluate_ne_ok (h : ∀ value, sheet.evaluate raw ≠ some (.ok value)) :
    Check.content raw = .ok () := by
  cases hContent : Check.content raw with
  | ok => rfl
  | error fault =>
      exact absurd (evaluate_of_text (Check.ofString_of_content_eq_error hContent)) (h raw)

/-- Showing a whole sheet agrees with showing its cells one by one. The whole sheet has the
rows of the table, and at each place what the cell shows, or the content itself where it does
not pass the checks. When a cell has no value, the whole sheet has the error of the first such
cell, or nothing when its evaluation has no end. -/
theorem evaluatedRows_agrees (sheet : Sheet) (hIndexed : sheet.table.Indexed) :
    (∀ shown, sheet.evaluatedRows = some (.ok shown) →
      shown.map List.length = sheet.table.rows.map List.length ∧
      ∀ address raw, sheet.table.contentAt address = some raw →
        (Check.content raw = .ok () →
          ∃ value, (Table.mk shown).contentAt address = some value ∧
            sheet.get address.display = some (.ok value)) ∧
        ∀ cause, Check.content raw = .error cause →
          sheet.get address.display = some (.error cause) ∧
            (Table.mk shown).contentAt address = some raw) ∧
    ∀ stop : Option SheetError, sheet.evaluatedRows = stop.map .error →
      ∃ address raw, sheet.table.contentAt address = some raw ∧
        sheet.evaluate raw = stop.map .error ∧ sheet.get address.display = stop.map .error ∧
        ∀ earlier content, sheet.table.contentAt earlier = some content →
          earlier.Precedes address → ∃ value, sheet.evaluate content = some (.ok value) := by
  constructor
  · intro shown hShown
    refine ⟨map_length_of_evaluatedRows hShown, fun address raw hRaw => ?_⟩
    obtain ⟨value, hValue, hEvaluate⟩ :=
      Table.contentAt_of_forall₂ (evaluatedRows_eq_ok_iff.mp hShown) hRaw
    constructor
    · intro hContent
      exact ⟨value, hValue, (get_display_of_ok hIndexed hRaw hContent).trans hEvaluate⟩
    · intro cause hContent
      rw [evaluate_of_text (Check.ofString_of_content_eq_error hContent), Option.some.injEq,
        Except.ok.injEq] at hEvaluate
      exact ⟨get_display_of_error hIndexed hRaw hContent, hEvaluate ▸ hValue⟩
  · intro stop hStop
    obtain ⟨address, raw, hRaw, hEvaluate, hEarlier⟩ := exists_first_of_evaluatedRows stop hStop
    have hNone : ∀ value, sheet.evaluate raw ≠ some (.ok value) := by
      rw [hEvaluate]
      cases stop <;> simp
    have hGet := get_display_of_ok hIndexed hRaw (content_of_evaluate_ne_ok hNone)
    exact ⟨address, raw, hRaw, hEvaluate, hGet.trans hEvaluate, hEarlier⟩

theorem evaluatedRows_agrees_on_ragged :
    let sheet : Sheet := ⟨⟨[["=FOO(1,2)", "2.5"], [], ["=ADD(B1,A1)"]]⟩, some 3⟩
    sheet.table.Indexed ∧
      sheet.evaluatedRows = some (.ok [["=FOO(1,2)", "2.5"], [], ["2.50"]]) ∧
      sheet.get "A1" = some (.error (.unknownFunction "FOO")) ∧
      sheet.get "A3" = some (.ok "2.50") := by
  intro sheet
  have hIndexed : sheet.table.Indexed := by
    refine ⟨by decide, ?_⟩
    decide
  have hShown : sheet.evaluatedRows = some (.ok [["=FOO(1,2)", "2.5"], [], ["2.50"]]) := by
    have hEvaluate : sheet.evaluate =
        fun raw => some (shownWithin sheet.table (.chainTooLong 3) 4 raw) :=
      funext (sheet.table.evaluate_some 3)
    rw [evaluatedRows_eq, hEvaluate]
    decide +kernel
  have hText : Address.display ⟨1, 1⟩ = "A1" ∧ Address.display ⟨3, 1⟩ = "A3" := by
    decide +kernel
  have hCells := ((evaluatedRows_agrees sheet hIndexed).1 _ hShown).2
  have hFirst := (hCells ⟨1, 1⟩ "=FOO(1,2)" rfl).2 (.unknownFunction "FOO") (by decide +kernel)
  obtain ⟨value, hValue, hLast⟩ := (hCells ⟨3, 1⟩ "=ADD(B1,A1)" rfl).1 (by decide +kernel)
  cases hValue
  rw [hText.1] at hFirst
  rw [hText.2] at hLast
  exact ⟨hIndexed, hShown, hFirst.1, hLast⟩

end Sheet

end PlainSheet
