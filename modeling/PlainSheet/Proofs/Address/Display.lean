import PlainSheet.Proofs.Grammar.Content

/-! Addresses are written as references that name them: the letters of a column count up to
it, and the digits of a row have no leading zero. -/

namespace PlainSheet

namespace Address

theorem capital_letter {place : Nat} (h : place < 26) :
    'A' ≤ letter place ∧ letter place ≤ 'Z' ∧ (letter place).toNat - 'A'.toNat = place := by
  have hAll : ∀ place < 26, 'A' ≤ letter place ∧ letter place ≤ 'Z' ∧
      (letter place).toNat - 'A'.toNat = place := by decide
  exact hAll place h

/-- The letters of a column are capitals, whatever capitals were written before. -/
theorem capital_of_mem_lettersBefore {written : List Char} {column : Nat}
    (hWritten : ∀ c ∈ written, 'A' ≤ c ∧ c ≤ 'Z') :
    ∀ c ∈ lettersBefore written column, 'A' ≤ c ∧ c ≤ 'Z' := by
  fun_induction lettersBefore written column with
  | case1 written => exact hWritten
  | case2 written column ih =>
      have hLetter := capital_letter (Nat.mod_lt column (by decide : 0 < 26))
      exact ih (List.forall_mem_cons.mpr ⟨⟨hLetter.1, hLetter.2.1⟩, hWritten⟩)

/-- Letters before others count up to the column, from which the others count on. -/
theorem foldl_lettersBefore (written : List Char) (column : Nat) :
    (lettersBefore written column).foldl (fun column c => column * 26 + (c.toNat - 'A'.toNat + 1))
        0 =
      written.foldl (fun column c => column * 26 + (c.toNat - 'A'.toNat + 1)) column := by
  fun_induction lettersBefore written column with
  | case1 written => rfl
  | case2 written column ih =>
      have hLetter := capital_letter (Nat.mod_lt column (by decide : 0 < 26))
      have hColumn : column / 26 * 26 + (column % 26 + 1) = column + 1 := by omega
      rw [ih, List.foldl_cons, hLetter.2.2, hColumn]

theorem lettersOfColumn_ne_nil {column : Nat} (h : 0 < column) : lettersOfColumn column ≠ [] := by
  intro hNil
  have hColumn := foldl_lettersBefore [] column
  rw [← lettersOfColumn, hNil] at hColumn
  exact absurd hColumn (Nat.ne_of_lt h)

/-- A row is written with a first digit that is not zero. -/
theorem exists_toDigits_eq {row : Nat} (h : 0 < row) :
    ∃ (leading : RangeChar '1' '9') (digits : RangeRun '0' '9'),
      Nat.toDigits 10 row = leading.val :: digits.val := by
  induction row using Nat.strongRecOn with
  | ind row ih =>
      rw [Nat.toDigits_eq_if (by decide)]
      split
      next hSmall =>
        have hAll : ∀ digit < 10, 0 < digit →
            '1' ≤ Nat.digitChar digit ∧ Nat.digitChar digit ≤ '9' := by decide
        exact ⟨⟨row.digitChar, hAll row hSmall h⟩, ⟨[], by simp⟩, rfl⟩
      next hLarge =>
        obtain ⟨leading, digits, hDigits⟩ := ih (row / 10) (by omega) (by omega)
        have hLast : ∀ digit < 10, '0' ≤ Nat.digitChar digit ∧ Nat.digitChar digit ≤ '9' := by
          decide
        refine ⟨leading, ⟨digits.val ++ [(row % 10).digitChar], ?_⟩, by rw [hDigits]; rfl⟩
        intro c hc
        rcases List.mem_append.mp hc with hc | hc
        · exact digits.property c hc
        · rw [List.mem_singleton.mp hc]
          exact hLast (row % 10) (by omega)

/-- An address is written as the text that the grammar derives for a cell with its row and
column. -/
theorem exists_cell_display (address : Address) (hRow : 0 < address.row)
    (hColumn : 0 < address.column) :
    ∃ tree : CellTree, tree.chars = address.display.toList ∧ tree.row = address.row ∧
      tree.column = address.column := by
  obtain ⟨leading, digits, hDigits⟩ := exists_toDigits_eq hRow
  have hCapitals : ∀ c ∈ lettersOfColumn address.column, 'A' ≤ c ∧ c ≤ 'Z' :=
    capital_of_mem_lettersBefore (by simp)
  refine ⟨⟨⟨lettersOfColumn address.column, lettersOfColumn_ne_nil hColumn, hCapitals⟩, leading,
    digits⟩, ?_, ?_, foldl_lettersBefore [] address.column⟩
  · rw [display, String.toList_append, String.toList_ofList, Nat.toString_eq_repr, Nat.toList_repr,
      hDigits]
    rfl
  · rw [CellTree.row, ← hDigits, Nat.ofDigitChars_ten_toDigits]

end Address

/-- What an address is written as is read as a reference to it. -/
theorem Reference.ofString?_display (address : Address) (hRow : 0 < address.row)
    (hColumn : 0 < address.column) :
    ∃ r, ofString? address.display = some r ∧
      r.address = ⟨Address.saturate address.row, Address.saturate address.column⟩ := by
  obtain ⟨tree, hChars, hTreeRow, hTreeColumn⟩ := address.exists_cell_display hRow hColumn
  refine ⟨tree.reference, ?_, ?_⟩
  · rw [ofString?, ofChars?_eq_some_iff]
    exact ⟨tree, hChars, rfl⟩
  · rw [tree.reference_address, hTreeRow, hTreeColumn]

end PlainSheet
