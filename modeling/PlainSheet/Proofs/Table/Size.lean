import Mathlib.Algebra.GroupWithZero.Nat
import Mathlib.Algebra.Order.BigOperators.Group.List
import Mathlib.Algebra.Order.Group.Nat
import PlainSheet.Proofs.Table.Canonical

/-! The size of a table's raw text in bytes. It is written with one separator between two cells,
and each of them is paid for by a separator of the text that the table was read from, wherever
that one stood. So the raw text of a table is no longer than any text that describes it. -/

namespace PlainSheet

namespace Text

/-- The number of bytes that characters have in UTF-8. -/
def byteCount (text : List Char) : Nat := (text.map Char.utf8Size).sum

theorem byteCount_nil : byteCount [] = 0 := rfl

theorem byteCount_cons (c : Char) (text : List Char) :
    byteCount (c :: text) = c.utf8Size + byteCount text := by
  simp [byteCount]

theorem byteCount_append (first second : List Char) :
    byteCount (first ++ second) = byteCount first + byteCount second := by
  simp [byteCount]

/-- Leaving out characters leaves out their bytes. -/
theorem byteCount_le_of_sublist {first second : List Char} (h : first.Sublist second) :
    byteCount first ≤ byteCount second :=
  (h.map Char.utf8Size).sum_le_sum fun _ _ => Nat.zero_le _

theorem utf8ByteSize_ofList (text : List Char) :
    (String.ofList text).utf8ByteSize = byteCount text := by
  induction text with
  | nil => rfl
  | cons c text ih =>
      rw [byteCount_cons, ← ih, ← String.utf8ByteSize_singleton, ← String.utf8ByteSize_append,
        String.singleton_eq_ofList, ← String.ofList_append]
      rfl

/-- The bytes of a text are counted by its characters. -/
theorem byteCount_toList (text : String) : byteCount text.toList = text.utf8ByteSize := by
  rw [← utf8ByteSize_ofList, String.ofList_toList]

theorem trimBoth_sublist (test : Char → Bool) (text : List Char) :
    (trimBoth test text).Sublist text := by
  have hRight := List.dropWhile_sublist (l := (text.dropWhile test).reverse) test
  rw [← List.reverse_sublist, List.reverse_reverse] at hRight
  exact hRight.trans (List.dropWhile_sublist test)

/-- The number of bytes of texts when each is followed by one byte more, which ends it. -/
def endedByteCount (texts : List (List Char)) : Nat :=
  (texts.map fun text => byteCount text + 1).sum

theorem endedByteCount_cons (text : List Char) (texts : List (List Char)) :
    endedByteCount (text :: texts) = byteCount text + 1 + endedByteCount texts := by
  simp [endedByteCount]

theorem endedByteCount_append (first second : List (List Char)) :
    endedByteCount (first ++ second) = endedByteCount first + endedByteCount second := by
  simp [endedByteCount]

theorem endedByteCount_le_of_sublist {first second : List (List Char)} (h : first.Sublist second) :
    endedByteCount first ≤ endedByteCount second :=
  (h.map fun text => byteCount text + 1).sum_le_sum fun _ _ => Nat.zero_le _

/-- Texts that are joined have one end less than there are texts. -/
theorem byteCount_intercalate {separator : Char} (hSize : separator.utf8Size = 1)
    (texts : List (List Char)) :
    byteCount ([separator].intercalate texts) = endedByteCount texts - 1 := by
  induction texts with
  | nil => rfl
  | cons text texts ih =>
      cases texts with
      | nil => simp [endedByteCount]
      | cons second texts =>
          rw [List.intercalate_cons_cons, byteCount_append, byteCount_append, ih, byteCount_cons,
            byteCount_nil, hSize]
          simp only [endedByteCount_cons]
          omega

end Text

namespace Table

open Text

/-- Each character pays for what it adds to the tokens, a separator for the end of a token. -/
theorem Cut.endedByteCount_extend (c : Char) (cut : Cut) :
    endedByteCount (cut.extend c).tokens ≤ c.utf8Size + endedByteCount cut.tokens := by
  have hSize := c.utf8Size_pos
  rcases cut.extend_cases c with ⟨-, hExtend⟩ | ⟨-, current, right, rfl, hExtend⟩ |
    ⟨-, right, rfl, hExtend⟩ | ⟨-, current, right, hCut, hExtend, -⟩
  · simp only [hExtend, tokens, endedByteCount_cons, byteCount_nil]
    omega
  · have hSpace := Char.utf8Size_pos ' '
    simp only [hExtend, tokens, endedByteCount_cons, byteCount_cons, byteCount_nil]
    omega
  · rw [hExtend]
    omega
  · rw [hExtend, hCut]
    simp only [tokens, endedByteCount_cons, byteCount_cons]
    omega

/-- A newline pays for the end of the line that it starts, and any other character for what it
adds to its line. -/
theorem TextCut.endedByteCount_extend (c : Char) (cut : TextCut) :
    endedByteCount (cut.extend c).lines.flatten ≤
      c.utf8Size + endedByteCount cut.lines.flatten := by
  have hSize := c.utf8Size_pos
  by_cases hNewline : c = '\n'
  · simp only [extend, if_pos hNewline, lines, Cut.tokens, List.flatten_cons,
      endedByteCount_append, endedByteCount_cons, byteCount_nil]
    simp only [endedByteCount, List.map_nil, List.sum_nil]
    omega
  · have hLine := Cut.endedByteCount_extend c cut.line
    simp only [extend, if_neg hNewline, lines, List.flatten_cons, endedByteCount_append]
    omega

/-- The tokens of a text with an end for each are one byte longer than the text at most. -/
theorem endedByteCount_textTokens_le (text : List Char) :
    endedByteCount (textTokens text).flatten ≤ byteCount text + 1 := by
  unfold textTokens
  induction text with
  | nil => exact Nat.le_refl 1
  | cons c text ih =>
      have hStep := TextCut.endedByteCount_extend c (text.foldr TextCut.extend ⟨.token [] [], []⟩)
      rw [List.foldr_cons, byteCount_cons]
      omega

/-- The rows of a raw text are ended by their newlines as its cells are by their tabs. -/
theorem endedByteCount_rows {rows : List (List (List Char))} (hRows : ∀ row ∈ rows, row ≠ []) :
    endedByteCount (rows.map ['\t'].intercalate) = endedByteCount rows.flatten := by
  induction rows with
  | nil => rfl
  | cons row rows ih =>
      obtain ⟨hRow, hRest⟩ := List.forall_mem_cons.mp hRows
      obtain ⟨cell, cells, rfl⟩ := List.exists_cons_of_ne_nil hRow
      rw [List.map_cons, endedByteCount_cons, ih hRest, byteCount_intercalate (by decide),
        List.flatten_cons, endedByteCount_append, endedByteCount_cons]
      omega

/-- Every cell of a raw text is ended by one byte, but for the last. -/
theorem utf8ByteSize_toText {table : Table} (hRows : ∀ row ∈ table.rows, row ≠ []) :
    table.toText.utf8ByteSize = endedByteCount (table.rows.flatten.map String.toList) - 1 := by
  have hTokens : ∀ row ∈ rowTokens table.rows, row ≠ [] := by
    intro row hRow
    obtain ⟨cells, hCells, rfl⟩ := List.mem_map.mp hRow
    simpa using hRows cells hCells
  rw [← byteCount_toList, toText_toList, byteCount_intercalate (by decide),
    endedByteCount_rows hTokens, rowTokens, ← List.map_flatten]

/-- The raw text of a table is no longer in bytes than the text that it was read from. -/
theorem utf8ByteSize_toText_ofString_le (text : String) :
    (ofString text).toText.utf8ByteSize ≤ text.utf8ByteSize := by
  have hCells : (ofString text).rows.flatten.map String.toList =
      cellTokens (trimBoth isEdge text.toList) := by
    simp [ofString, flatten_ofTrimmed, Function.comp_def]
  rw [utf8ByteSize_toText (canonical_ofString text).ne_nil_of_mem, hCells, ← byteCount_toList]
  apply Nat.sub_le_of_le_add
  calc endedByteCount (cellTokens (trimBoth isEdge text.toList))
      ≤ endedByteCount (textTokens (trimBoth isEdge text.toList)).flatten :=
        endedByteCount_le_of_sublist List.filter_sublist
    _ ≤ byteCount (trimBoth isEdge text.toList) + 1 := endedByteCount_textTokens_le _
    _ ≤ byteCount text.toList + 1 :=
        Nat.add_le_add_right (byteCount_le_of_sublist (trimBoth_sublist _ _)) 1

end Table

end PlainSheet
