import PlainSheet.Proofs.Address.RoundTrip
import PlainSheet.Proofs.Table.Position

/-! Looking up cells by the texts that name them. A text is looked up at the position that its
letters and digits count up to, however large this is, and each cell has one such text only. -/

namespace PlainSheet

namespace CellTree

theorem row_pos (tree : CellTree) : 0 < tree.row := by
  rw [Nat.pos_iff_ne_zero]
  intro hZero
  have hDigits := tree.toDigits_row
  rw [hZero, Nat.toDigits_zero, List.cons.injEq] at hDigits
  exact leading_ne_zero tree.leading hDigits.1.symm

theorem column_pos (tree : CellTree) : 0 < tree.column := by
  rw [Nat.pos_iff_ne_zero]
  intro hZero
  have hLetters := tree.lettersOfColumn_column
  rw [hZero, Address.lettersOfColumn, Address.lettersBefore] at hLetters
  exact tree.letters.property.1 hLetters.symm

end CellTree

namespace Table

variable {table : Table} {text content : String} {r : Reference}

theorem cellAt_of_not_cell (h : ¬∃ tree : CellTree, tree.chars = text.toList) :
    table.cellAt text = .error (.invalidAddress text) := by
  unfold cellAt
  split
  next r hRead =>
    obtain ⟨tree, hChars, -⟩ := Reference.ofChars?_eq_some_iff.mp hRead
    exact absurd ⟨tree, hChars⟩ h
  next => rfl

namespace BelowMaxIndex

/-- A text is looked up where its letters and digits lead without bound. -/
theorem cellAt_of_cell (h : table.BelowMaxIndex) {tree : CellTree}
    (hChars : tree.chars = text.toList) :
    table.cellAt text =
      match table.contentAt ⟨tree.row, tree.column⟩ with
      | some content => .ok content
      | none => .error (.missingCell text) := by
  have hRead : Reference.ofString? text = some tree.reference :=
    Reference.ofChars?_eq_some_iff.mpr ⟨tree, hChars, rfl⟩
  have hText : tree.reference.text = text := by
    show String.ofList tree.chars = text
    rw [hChars, String.ofList_toList]
  have hContent : table.get? tree.reference.address.row tree.reference.address.column =
      table.contentAt ⟨tree.row, tree.column⟩ := by
    rw [tree.reference_address]
    exact h.contentAt_saturate ⟨tree.row, tree.column⟩
  cases hFound : table.contentAt ⟨tree.row, tree.column⟩ <;>
    simp only [cellAt, hRead, follow, hContent, hFound, hText]

/-- A text that leads to a cell is the one that the address of the cell is written as. -/
theorem display_of_contentAt (h : table.BelowMaxIndex) (hRead : Reference.ofString? text = some r)
    (hContent : table.contentAt r.address = some content) : r.address.display = text := by
  obtain ⟨tree, hChars, rfl⟩ := Reference.ofChars?_eq_some_iff.mp hRead
  obtain ⟨hRow, hColumn⟩ := h.lt_of_contentAt hContent
  rw [tree.reference_address] at hRow hColumn ⊢
  rw [Address.eq_of_saturate_lt hRow, Address.eq_of_saturate_lt hColumn, tree.display_position,
    hChars, String.ofList_toList]

end BelowMaxIndex

/-- A text is refused as an address exactly if it is no cell of the grammar. Any other text names
a row and a column, counted from one and without bound, and the content is found there if there is
a cell, however long its row is; if there is none, the text is reported as it was written. Two
texts that lead to a cell, and to the same one, are the same text. -/
theorem cellAt_exact (hTable : table.BelowMaxIndex) :
    (∀ text, table.cellAt text = .error (.invalidAddress text) ↔
      ¬∃ tree : CellTree, tree.chars = text.toList) ∧
    (∀ text (tree : CellTree), tree.chars = text.toList →
      ∃ row column, tree.row = row + 1 ∧ tree.column = column + 1 ∧
        table.cellAt text =
          match table.rows[row]?.bind fun cells => cells[column]? with
          | some content => .ok content
          | none => .error (.missingCell text)) ∧
    ∀ first second r s, Reference.ofString? first = some r → Reference.ofString? second = some s →
      r.address = s.address → ∀ content, table.contentAt r.address = some content →
        first = second := by
  refine ⟨?_, ?_, ?_⟩
  · intro text
    refine ⟨fun hRefused hCell => ?_, cellAt_of_not_cell⟩
    obtain ⟨tree, hChars⟩ := hCell
    rw [hTable.cellAt_of_cell hChars] at hRefused
    split at hRefused <;> cases hRefused
  · intro text tree hChars
    obtain ⟨row, hRow⟩ := Nat.exists_eq_succ_of_ne_zero (Nat.ne_of_gt tree.row_pos)
    obtain ⟨column, hColumn⟩ := Nat.exists_eq_succ_of_ne_zero (Nat.ne_of_gt tree.column_pos)
    refine ⟨row, column, hRow, hColumn, ?_⟩
    rw [hTable.cellAt_of_cell hChars, hRow, hColumn]
    rfl
  · intro first second r s hFirst hSecond hSame content hContent
    rw [← hTable.display_of_contentAt hFirst hContent, hSame]
    rw [hSame] at hContent
    exact hTable.display_of_contentAt hSecond hContent

/-- The row 2⁶⁴ + 1 is none of the table, although it saturates; the text is reported as written. -/
theorem cellAt_exact_on_ragged :
    let table : Table := ⟨[["a"], ["b", "c"]]⟩
    table.BelowMaxIndex ∧ table.cellAt "A01" = .error (.invalidAddress "A01") ∧
      table.cellAt "B2" = .ok "c" ∧
      table.cellAt "A18446744073709551617" = .error (.missingCell "A18446744073709551617") ∧
      ∀ text r, Reference.ofString? text = some r → r.address = ⟨2, 2⟩ → text = "B2" := by
  intro table
  have hTable : table.BelowMaxIndex := ⟨by decide, by decide⟩
  obtain ⟨hInvalid, hLookup, hUnique⟩ := cellAt_exact hTable
  refine ⟨hTable, (hInvalid "A01").mpr ?_, ?_, ?_, ?_⟩
  · intro hCell
    obtain ⟨tree, hChars⟩ := hCell
    have hRead := Reference.ofChars?_eq_some_iff.mpr ⟨tree, hChars, rfl⟩
    have hNone : Reference.ofChars? "A01".toList = none := by decide +kernel
    cases hNone.symm.trans hRead
  · let tree : CellTree := ⟨⟨['B'], by simp⟩, ⟨'2', by decide⟩, ⟨[], by simp⟩⟩
    obtain ⟨row, column, hRow, hColumn, hFound⟩ := hLookup "B2" tree (by decide +kernel)
    obtain rfl : 1 = row := Nat.succ.inj hRow
    obtain rfl : 1 = column := Nat.succ.inj hColumn
    exact hFound
  · let tree : CellTree :=
      ⟨⟨['A'], by simp⟩, ⟨'1', by decide⟩, ⟨"8446744073709551617".toList, by simp⟩⟩
    obtain ⟨row, column, hRow, hColumn, hFound⟩ :=
      hLookup "A18446744073709551617" tree (by decide +kernel)
    have hFar : tree.row = 18446744073709551616 + 1 := by decide +kernel
    obtain rfl : 18446744073709551616 = row := Nat.succ.inj (hFar.symm.trans hRow)
    have hNone : table.rows[18446744073709551616]? = none := List.getElem?_eq_none (by decide)
    rw [hFound, hNone]
    rfl
  · intro text r hRead hAddress
    have hNamed : Reference.ofString? "B2" = some ⟨['B'], ['2']⟩ := by decide +kernel
    exact hUnique text "B2" r _ hRead hNamed hAddress "c" (by rw [hAddress]; rfl)

end Table

end PlainSheet
