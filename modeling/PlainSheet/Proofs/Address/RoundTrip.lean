import PlainSheet.Proofs.Address.Display

/-! Addresses are written and read as inverses. A reference to a position within the indices is
written back as it was, since neither letters nor digits have a second spelling: there is no
letter for zero, and no row begins with one. -/

namespace PlainSheet

namespace Address

theorem place_of_capital {c : Char} (h : 'A' ≤ c ∧ c ≤ 'Z') :
    c.toNat - 'A'.toNat < 26 ∧ letter (c.toNat - 'A'.toNat) = c := by
  have hLow : 'A'.toNat ≤ c.toNat := h.1
  have hHigh : c.toNat ≤ 'Z'.toNat := h.2
  have hAlphabet : 'Z'.toNat = 'A'.toNat + 25 := rfl
  refine ⟨by omega, ?_⟩
  rw [letter, Nat.add_sub_cancel' hLow, Char.ofNat_toNat]

theorem value_of_digit {c : Char} (h : '0' ≤ c ∧ c ≤ '9') :
    c.toNat - '0'.toNat < 10 ∧ Nat.digitChar (c.toNat - '0'.toNat) = c := by
  have hLow : '0'.toNat ≤ c.toNat := h.1
  have hHigh : c.toNat ≤ '9'.toNat := h.2
  have hDecimal : '9'.toNat = '0'.toNat + 9 := rfl
  have hValue : c.toNat - '0'.toNat < 10 := by omega
  refine ⟨hValue, ?_⟩
  rw [← Char.toNat_inj, Nat.toNat_digitChar_of_lt_ten hValue]
  exact Nat.add_sub_cancel' hLow

/-- The letters that count on from a column are written behind the letters of that column. -/
theorem lettersBefore_foldl {letters : List Char} (hLetters : ∀ c ∈ letters, 'A' ≤ c ∧ c ≤ 'Z')
    (written : List Char) (column : Nat) :
    lettersBefore written
        (letters.foldl (fun column c => column * 26 + (c.toNat - 'A'.toNat + 1)) column) =
      lettersBefore (letters ++ written) column := by
  induction letters generalizing column with
  | nil => rfl
  | cons c letters ih =>
      obtain ⟨hCapital, hRest⟩ := List.forall_mem_cons.mp hLetters
      obtain ⟨hPlace, hLetter⟩ := place_of_capital hCapital
      have hLast : (column * 26 + (c.toNat - 'A'.toNat)) % 26 = c.toNat - 'A'.toNat := by omega
      have hAbove : (column * 26 + (c.toNat - 'A'.toNat)) / 26 = column := by omega
      rw [List.foldl_cons, ih hRest, ← Nat.add_assoc, lettersBefore, hLast, hAbove, hLetter,
        List.cons_append]

/-- The digits that count on from a number are written behind the digits of that number, unless
this is zero. -/
theorem toDigits_ofDigitChars {digits : List Char} (hDigits : ∀ c ∈ digits, '0' ≤ c ∧ c ≤ '9')
    {number : Nat} (hNumber : 0 < number) :
    Nat.toDigits 10 (Nat.ofDigitChars 10 digits number) = Nat.toDigits 10 number ++ digits := by
  induction digits generalizing number with
  | nil => simp
  | cons c digits ih =>
      obtain ⟨hDigit, hRest⟩ := List.forall_mem_cons.mp hDigits
      obtain ⟨hValue, hChar⟩ := value_of_digit hDigit
      rw [Nat.ofDigitChars_cons, ih hRest (by omega),
        ← Nat.toDigits_append_toDigits (by decide) hNumber hValue,
        Nat.toDigits_of_lt_base hValue, hChar, List.append_assoc, List.singleton_append]

end Address

namespace CellTree

theorem lettersOfColumn_column (tree : CellTree) :
    Address.lettersOfColumn tree.column = tree.letters.val := by
  rw [Address.lettersOfColumn, column, Address.lettersBefore_foldl tree.letters.property.2,
    Address.lettersBefore, List.append_nil]

theorem toDigits_row (tree : CellTree) :
    Nat.toDigits 10 tree.row = tree.leading.val :: tree.digits.val := by
  obtain ⟨hLow, hHigh⟩ := tree.leading.property
  obtain ⟨hValue, hChar⟩ := Address.value_of_digit ⟨Char.le_trans (by decide) hLow, hHigh⟩
  have hPositive : 0 < tree.leading.val.toNat - '0'.toNat :=
    Nat.sub_pos_of_lt (Nat.lt_of_lt_of_le (by decide) hLow)
  rw [row, Nat.ofDigitChars_cons, Nat.mul_zero, Nat.zero_add,
    Address.toDigits_ofDigitChars tree.digits.property hPositive,
    Nat.toDigits_of_lt_base hValue, hChar, List.singleton_append]

/-- The position that a cell of the grammar names is written as that cell. -/
theorem display_position (tree : CellTree) :
    Address.display ⟨tree.row, tree.column⟩ = String.ofList tree.chars := by
  rw [Address.display, lettersOfColumn_column, Nat.toString_eq_ofList_toDigits, toDigits_row,
    ← String.ofList_append]
  rfl

end CellTree

namespace Address

/-- Every position within the indices is read back from what it is written as. Exactly the cells
of the grammar are read as addresses, however long they are. Each names a row and a column without
bound: within the indices these are the address, which is written back as the text, and beyond
them each is the largest index. -/
theorem display_inverse :
    (∀ row column, 1 ≤ row → row ≤ maxIndex → 1 ≤ column → column ≤ maxIndex →
      ∃ r, Reference.ofString? (display ⟨row, column⟩) = some r ∧ r.address = ⟨row, column⟩) ∧
    (∀ text r, Reference.ofString? text = some r → ∃ tree : CellTree, tree.chars = text.toList) ∧
    ∀ text (tree : CellTree), tree.chars = text.toList →
      ∃ r, Reference.ofString? text = some r ∧
        (tree.row ≤ maxIndex → tree.column ≤ maxIndex →
          r.address = ⟨tree.row, tree.column⟩ ∧ r.address.display = text) ∧
        r.address = ⟨min tree.row maxIndex, min tree.column maxIndex⟩ := by
  refine ⟨?_, ?_, ?_⟩
  · intro row column hRow hRowMax hColumn hColumnMax
    obtain ⟨r, hRead, hAddress⟩ := Reference.ofString?_display ⟨row, column⟩ hRow hColumn
    refine ⟨r, hRead, ?_⟩
    rw [hAddress, saturate_of_le hRowMax, saturate_of_le hColumnMax]
  · intro text r hRead
    obtain ⟨tree, hChars, -⟩ := Reference.ofChars?_eq_some_iff.mp hRead
    exact ⟨tree, hChars⟩
  · intro text tree hChars
    refine ⟨tree.reference, Reference.ofChars?_eq_some_iff.mpr ⟨tree, hChars, rfl⟩,
      fun hRow hColumn => ?_, tree.reference_address⟩
    rw [tree.reference_address, saturate_of_le hRow, saturate_of_le hColumn,
      tree.display_position, hChars, String.ofList_toList]
    exact ⟨rfl, rfl⟩

/-- The largest address is read back. A text that names smaller indices is written back, and one
that names the next row and column is read as the largest address. -/
theorem display_inverse_on_largest :
    (1 ≤ maxIndex ∧ ∃ r, Reference.ofString? (display ⟨maxIndex, maxIndex⟩) = some r ∧
      r.address = ⟨maxIndex, maxIndex⟩) ∧
    (∃ r, Reference.ofString? "XFD1048576" = some r ∧ r.address = ⟨1048576, 16384⟩ ∧
      r.address.display = "XFD1048576") ∧
    ∃ r, Reference.ofString? "GKGWBYLWRXTLPP18446744073709551616" = some r ∧
      r.address = ⟨maxIndex, maxIndex⟩ := by
  have hPositive : 1 ≤ maxIndex := by decide
  obtain ⟨hWritten, -, hRead⟩ := display_inverse
  refine ⟨⟨hPositive, hWritten _ _ hPositive (Nat.le_refl _) hPositive (Nat.le_refl _)⟩, ?_, ?_⟩
  · let tree : CellTree := ⟨⟨"XFD".toList, by simp⟩, ⟨'1', by decide⟩, ⟨"048576".toList, by simp⟩⟩
    have hRow : tree.row = 1048576 := by decide +kernel
    have hColumn : tree.column = 16384 := by decide +kernel
    obtain ⟨r, hText, hInside, -⟩ := hRead "XFD1048576" tree (by decide +kernel)
    rw [hRow, hColumn] at hInside
    obtain ⟨hAddress, hDisplay⟩ := hInside (by decide) (by decide)
    exact ⟨r, hText, hAddress, hDisplay⟩
  · let tree : CellTree :=
      ⟨⟨"GKGWBYLWRXTLPP".toList, by simp⟩, ⟨'1', by decide⟩,
        ⟨"8446744073709551616".toList, by simp⟩⟩
    have hRow : min tree.row maxIndex = maxIndex := by decide +kernel
    have hColumn : min tree.column maxIndex = maxIndex := by decide +kernel
    obtain ⟨r, hText, -, hCapped⟩ :=
      hRead "GKGWBYLWRXTLPP18446744073709551616" tree (by decide +kernel)
    rw [hRow, hColumn] at hCapped
    exact ⟨r, hText, hCapped⟩

end Address

end PlainSheet
