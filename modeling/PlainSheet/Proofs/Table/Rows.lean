import PlainSheet.Table.Reader

/-! Rows of one width, of which only the last may be shorter. Cutting a list gives such
rows, and such rows are what is cut from their own cells. -/

namespace PlainSheet.Table

variable {α : Type} {width : Nat} {row : List α} {rows : List (List α)}

/-- There are rows. All but the last are of the width, and the last is at most as long
and not empty. -/
inductive HasWidth (width : Nat) : List (List α) → Prop where
  | last {row : List α} : 1 ≤ row.length → row.length ≤ width → HasWidth width [row]
  | cons {row : List α} {rows : List (List α)} :
      row.length = width → HasWidth width rows → HasWidth width (row :: rows)

theorem cutRows_append (width : Nat) (done before : List (List α)) (cells : List α) :
    cutRows width (done ++ before) cells = before.reverse ++ cutRows width done cells := by
  fun_induction cutRows width done cells with
  | case1 done => simp [cutRows]
  | case2 done cell others ih => rw [cutRows, ← ih, List.cons_append]

theorem rowsOfWidth_nil (width : Nat) : rowsOfWidth width ([] : List α) = [] := by
  simp [rowsOfWidth, cutRows]

theorem rowsOfWidth_cons (width : Nat) (cell : α) (others : List α) :
    rowsOfWidth width (cell :: others) =
      (cell :: others.take (width - 1)) :: rowsOfWidth width (others.drop (width - 1)) := by
  have hCut := cutRows_append width [] [cell :: others.take (width - 1)]
    (others.drop (width - 1))
  rw [rowsOfWidth, cutRows]
  exact hCut

/-- A full row is cut off whole. -/
theorem rowsOfWidth_append (hRow : row.length = width) (hWidth : 1 ≤ width) (cells : List α) :
    rowsOfWidth width (row ++ cells) = row :: rowsOfWidth width cells := by
  cases row with
  | nil => simp at hRow; omega
  | cons cell others =>
      have hOthers : others.length = width - 1 := by
        rw [List.length_cons] at hRow
        omega
      rw [List.cons_append, rowsOfWidth_cons, List.take_left' hOthers, List.drop_left' hOthers]

/-- Cells that do not fill more than a row are one row. -/
theorem rowsOfWidth_of_length_le (hSome : 1 ≤ row.length) (hRow : row.length ≤ width) :
    rowsOfWidth width row = [row] := by
  cases row with
  | nil => simp at hSome
  | cons cell others =>
      have hOthers : others.length ≤ width - 1 := by
        rw [List.length_cons] at hRow
        omega
      rw [rowsOfWidth_cons, List.take_of_length_le hOthers, List.drop_of_length_le hOthers,
        rowsOfWidth_nil]

theorem rowsOfWidth_map {α β : Type} (f : α → β) (width : Nat) (cells : List α) :
    rowsOfWidth width (cells.map f) = (rowsOfWidth width cells).map (List.map f) := by
  induction hLength : cells.length using Nat.strongRecOn generalizing cells with
  | ind length ih =>
      cases cells with
      | nil => simp [rowsOfWidth_nil]
      | cons cell others =>
          have hShorter : (others.drop (width - 1)).length < length := by
            rw [List.length_drop, ← hLength, List.length_cons]
            omega
          rw [List.map_cons, rowsOfWidth_cons, rowsOfWidth_cons, ← List.map_drop, ← List.map_take,
            ih _ hShorter _ rfl, List.map_cons, List.map_cons]

/-- Cells are cut into full rows, but for the last. -/
theorem hasWidth_rowsOfWidth (hWidth : 1 ≤ width) (cells : List α) (hSome : cells ≠ []) :
    HasWidth width (rowsOfWidth width cells) := by
  -- Each step of the induction takes one full row off the cells.
  induction hLength : cells.length using Nat.strongRecOn generalizing cells with
  | ind length ih =>
      have hPositive := List.length_pos_iff.mpr hSome
      by_cases hShort : cells.length ≤ width
      · rw [rowsOfWidth_of_length_le hPositive hShort]
        exact .last hPositive hShort
      · have hRow : (cells.take width).length = width := by
          rw [List.length_take]
          omega
        have hRest : HasWidth width (rowsOfWidth width (cells.drop width)) := by
          apply ih (cells.drop width).length
          · rw [List.length_drop]
            omega
          · rw [← List.length_pos_iff, List.length_drop]
            omega
          · rfl
        rw [← List.take_append_drop width cells, rowsOfWidth_append hRow hWidth]
        exact .cons hRow hRest

namespace HasWidth

/-- Rows of a width are cut from their own cells again. -/
theorem rowsOfWidth_flatten (hRows : HasWidth width rows) (hWidth : 1 ≤ width) :
    rowsOfWidth width rows.flatten = rows := by
  induction hRows with
  | last hSome hRow => simpa using rowsOfWidth_of_length_le hSome hRow
  | cons hRow _ ih => rw [List.flatten_cons, rowsOfWidth_append hRow hWidth, ih]

theorem length_pos (hRows : HasWidth width rows) (hWidth : 1 ≤ width) :
    ∀ row ∈ rows, 1 ≤ row.length := by
  induction hRows with
  | last hSome _ => simpa using hSome
  | cons hRow _ ih =>
      rw [List.forall_mem_cons]
      exact ⟨by omega, ih⟩

/-- The length of the first row is a width of the rows, even when it is the only one. -/
theorem length_head (hRows : HasWidth width (row :: rows)) :
    HasWidth row.length (row :: rows) := by
  cases hRows with
  | last hSome hRow => exact .last hSome (Nat.le_refl _)
  | cons hRow hRest => exact .cons rfl (hRow ▸ hRest)

/-- Of several rows the first is full. -/
theorem length_eq (hRows : HasWidth width (row :: rows)) (hSeveral : rows ≠ []) :
    row.length = width := by
  cases hRows with
  | last => exact absurd rfl hSeveral
  | cons hRow _ => exact hRow

theorem of_forall_length (hWidth : 1 ≤ width) (hSome : rows ≠ [])
    (hRows : ∀ row ∈ rows, row.length = width) : HasWidth width rows := by
  induction rows with
  | nil => exact absurd rfl hSome
  | cons row rows ih =>
      rw [List.forall_mem_cons] at hRows
      by_cases hLast : rows = []
      · subst hLast
        exact .last (by omega) (Nat.le_of_eq hRows.1)
      · exact .cons hRows.1 (ih hLast hRows.2)

end HasWidth

end PlainSheet.Table
