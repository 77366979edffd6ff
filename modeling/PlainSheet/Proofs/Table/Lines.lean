import Mathlib.Data.List.Forall2
import PlainSheet.Proofs.Table.Canonical
import PlainSheet.Proofs.Table.Separators

/-! When the lines of a text are the rows of its table. The cells of all lines are put into rows
as long as the first line has tokens, and blank tokens count there although they are no cells.
So lines of one number of cells are rows exactly if the first line has no blank token. -/

namespace PlainSheet.Table

open Text

/-- The lines of a text by their tokens: the text is trimmed, its lines end at newlines, and the
tokens of a line stand between its tabs and runs of spaces. -/
def HasLines (text : String) (lines : List (List (List Char))) : Prop :=
  ∃ core, IsTrimmed text.toList core ∧ List.Forall₂ Parted (core.splitOn '\n') lines

/-- The cells among the tokens of a line, which are not made of blank characters only. -/
def lineCells (tokens : List (List Char)) : List (List Char) :=
  tokens.filter fun token => !token.all blankChars.contains

/-- The cells of each line that has some. -/
def cellLines (lines : List (List (List Char))) : List (List (List Char)) :=
  (lines.map lineCells).filter (· ≠ [])

theorem not_mem_of_mem_splitOn {c : Char} {text line : List Char} (h : line ∈ text.splitOn c) :
    c ∉ line := by
  induction text generalizing line with
  | nil =>
      rw [List.splitOn_nil, List.mem_singleton] at h
      simp [h]
  | cons d text ih =>
      rw [List.splitOn_cons_eq_if_modifyHead] at h
      split at h
      next => exact (List.mem_cons.mp h).elim (fun hNil => by simp [hNil]) ih
      next hOther =>
        obtain ⟨first, others, hLines⟩ := List.exists_cons_of_ne_nil (List.splitOn_ne_nil c text)
        rw [hLines] at h ih
        rcases List.mem_cons.mp h with rfl | hMem
        · have hFirst : c ∉ first := ih (List.mem_cons_self ..)
          have hd : c ≠ d := fun hSame => hOther (beq_iff_eq.mpr hSame.symm)
          simp [hd, hFirst]
        · exact ih (List.mem_cons_of_mem _ hMem)

theorem forall₂_parted_iff {text : List Char} {lines : List (List (List Char))} :
    List.Forall₂ Parted (text.splitOn '\n') lines ↔ textTokens text = lines := by
  rw [textTokens_eq]
  constructor
  · intro h
    rw [← List.forall₂_eq_eq_eq, List.forall₂_map_left_iff]
    exact h.imp fun _ _ hLine => hLine.lineTokens_eq
  · rintro rfl
    rw [List.forall₂_map_right_iff, List.forall₂_same]
    exact fun line hLine => parted_iff.mpr ⟨not_mem_of_mem_splitOn hLine, rfl⟩

/-- A text has its lines in one way, and is cut into them. -/
theorem hasLines_iff {text : String} {lines : List (List (List Char))} :
    HasLines text lines ↔ textTokens (trimBoth isEdge text.toList) = lines := by
  constructor
  · rintro ⟨core, hCore, hLines⟩
    rw [← isTrimmed_iff.mp hCore]
    exact forall₂_parted_iff.mp hLines
  · intro h
    exact ⟨_, isTrimmed_iff.mpr rfl, forall₂_parted_iff.mpr h⟩

theorem lineCells_eq (tokens : List (List Char)) :
    lineCells tokens = tokens.filter fun token => !isBlankToken token := by
  have hBlank : isBlank = blankChars.contains := by
    funext c
    rw [Bool.eq_iff_iff, isBlank_iff, List.contains_iff_mem]
  simp only [lineCells, isBlankToken, hBlank]

theorem cellTokens_eq_flatMap (text : List Char) :
    cellTokens text = (textTokens text).flatMap lineCells := by
  rw [cellTokens, List.filter_flatten, ← funext lineCells_eq, List.flatMap_def]

theorem flatten_cellLines (lines : List (List (List Char))) :
    (cellLines lines).flatten = lines.flatMap lineCells := by
  rw [cellLines, List.flatMap_def]
  induction lines.map lineCells with
  | nil => rfl
  | cons cells others ih =>
      rw [List.filter_cons, List.flatten_cons, ← ih]
      cases cells <;> simp

/-- The first line of a text that describes some table has a cell: what the text starts with. -/
theorem lineCells_ne_nil {text : List Char} {first : List (List Char)}
    {others : List (List (List Char))} (hText : text ≠ [])
    (hHead : ∀ c ∈ text.head?, c ∉ edgeChars) (hTokens : textTokens text = first :: others) :
    lineCells first ≠ [] := by
  obtain ⟨c, rest, rfl⟩ := List.exists_cons_of_ne_nil hText
  have hc := hHead c rfl
  obtain ⟨hTab, hNewline, hSpace⟩ := ne_of_not_mem_edgeChars hc
  obtain ⟨token, line, lines, hLine⟩ := textTokens_cons rest hTab hNewline hSpace
  rw [hTokens, List.cons.injEq] at hLine
  have hCell : (c :: token) ∈ lineCells first := by
    rw [hLine.1]
    exact List.mem_filter.mpr ⟨List.mem_cons_self .., by simp [not_mem_blankChars hc]⟩
  exact List.ne_nil_of_mem hCell

/-- Cells in rows of the first line's length are the lines again if that line has no blank token,
and only then: its row is as long as the line has tokens, since it is not the last. -/
theorem rowsOfWidth_cellLines_iff {first : List (List Char)} {others : List (List (List Char))}
    {width : Nat} (hFirst : lineCells first ≠ [])
    (hSeveral : 2 ≤ (cellLines (first :: others)).length)
    (hSame : ∀ cells ∈ cellLines (first :: others), cells.length = width) :
    rowsOfWidth first.length (cellLines (first :: others)).flatten = cellLines (first :: others) ↔
      ∀ token ∈ first, ∃ c ∈ token, c ∉ blankChars := by
  have hAll : (lineCells first).length = first.length ↔
      ∀ token ∈ first, ∃ c ∈ token, c ∉ blankChars := by
    simp [lineCells, List.length_filter_eq_length_iff]
  have hCons : cellLines (first :: others) = lineCells first :: cellLines others := by
    simp [cellLines, hFirst]
  rw [hCons] at hSeveral hSame ⊢
  have hMore : cellLines others ≠ [] := by
    rintro hNone
    simp [hNone] at hSeveral
  have hWidth : (lineCells first).length = width := hSame _ (List.mem_cons_self ..)
  have hPositive : 1 ≤ (lineCells first).length := List.length_pos_iff.mpr hFirst
  have hLonger : (lineCells first).length ≤ first.length := List.length_filter_le ..
  rw [← hAll]
  constructor
  · intro hRows
    have hCells : (lineCells first :: cellLines others).flatten ≠ [] := by simp [hFirst]
    have hHasWidth := hasWidth_rowsOfWidth (Nat.le_trans hPositive hLonger) _ hCells
    rw [hRows] at hHasWidth
    exact hHasWidth.length_eq hMore
  · intro hFull
    have hHasWidth : HasWidth first.length (lineCells first :: cellLines others) :=
      .of_forall_length (by omega) (by simp) fun row hRow => by rw [hSame row hRow]; omega
    exact hHasWidth.rowsOfWidth_flatten (by omega)

/-- The rows of a table, by the lines of its text. -/
theorem rows_ofString_of_hasLines {text : String} {first : List (List Char)}
    {others : List (List (List Char))} (h : HasLines text (first :: others)) :
    (ofString text).rows = (rowsOfWidth first.length ((first :: others).flatMap lineCells)).map
      (List.map String.ofList) := by
  have hTokens := hasLines_iff.mp h
  rw [ofString, ofTrimmed_eq hTokens, cellTokens_eq_flatMap, hTokens, rowsOfWidth_map]

theorem rows_ofString_eq_iff {text : String} {lines : List (List (List Char))} {width : Nat}
    (hLines : HasLines text lines) (hSeveral : 2 ≤ (cellLines lines).length)
    (hSame : ∀ cells ∈ cellLines lines, cells.length = width) :
    (ofString text).rows = (cellLines lines).map (List.map String.ofList) ↔
      ∀ first ∈ lines.head?, ∀ token ∈ first, ∃ c ∈ token, c ∉ blankChars := by
  obtain ⟨first, others, rfl⟩ : ∃ first others, lines = first :: others := by
    cases lines with
    | nil => simp [cellLines] at hSeveral
    | cons first others => exact ⟨first, others, rfl⟩
  have hTokens := hasLines_iff.mp hLines
  have hText : trimBoth isEdge text.toList ≠ [] := by
    intro hNone
    have hNoLines : cellLines (textTokens []) = [] := rfl
    rw [← hTokens, hNone, hNoLines] at hSeveral
    simp at hSeveral
  have hFirst : lineCells first ≠ [] :=
    lineCells_ne_nil hText (fun c hc => isEdge_eq_false_iff.mp (head?_trimBoth hc)) hTokens
  have hOfList : Function.Injective (List.map (List.map String.ofList)) :=
    List.map_injective_iff.mpr (List.map_injective_iff.mpr fun _ _ => String.ofList_injective)
  rw [rows_ofString_of_hasLines hLines, hOfList.eq_iff, ← flatten_cellLines,
    rowsOfWidth_cellLines_iff hFirst hSeveral hSame]
  simp

/-- Behind the first line the cells alone count. -/
theorem ofString_eq_of_lineCells {text other : String} {lines otherLines : List (List (List Char))}
    (hLines : HasLines text lines) (hOther : HasLines other otherLines)
    (hHead : otherLines.head? = lines.head?)
    (hTail : otherLines.tail.flatMap lineCells = lines.tail.flatMap lineCells) :
    ofString other = ofString text := by
  cases lines with
  | nil =>
      obtain ⟨line, below, hTokens, -⟩ := exists_textTokens (trimBoth isEdge text.toList)
      rw [hasLines_iff, hTokens] at hLines
      cases hLines
  | cons first others =>
      obtain ⟨below, rfl⟩ := List.head?_eq_some_iff.mp hHead
      rw [Table.mk.injEq, rows_ofString_of_hasLines hLines, rows_ofString_of_hasLines hOther]
      simp only [List.tail_cons] at hTail
      rw [List.flatMap_cons, List.flatMap_cons, hTail]

/-- Every text has lines of tokens, in one way. If at least two of them have cells, and all that
do have the same number, then the rows of the table are the cells of these lines exactly if all
tokens of the first line are cells. What the table is depends, behind the first line, on the cells
alone: not on blank tokens, and not on lines without cells. -/
theorem lines_are_rows_iff :
    (∀ text : String, ∃! lines, HasLines text lines) ∧
    (∀ text lines, HasLines text lines → 2 ≤ (cellLines lines).length →
      ∀ width, (∀ cells ∈ cellLines lines, cells.length = width) →
        ((ofString text).rows = (cellLines lines).map (List.map String.ofList) ↔
          ∀ first ∈ lines.head?, ∀ token ∈ first, ∃ c ∈ token, c ∉ blankChars)) ∧
    ∀ text other lines otherLines, HasLines text lines → HasLines other otherLines →
      otherLines.head? = lines.head? →
        otherLines.tail.flatMap lineCells = lines.tail.flatMap lineCells →
          ofString other = ofString text := by
  refine ⟨fun text => ?_, ?_, ?_⟩
  · exact ⟨_, hasLines_iff.mpr rfl, fun lines hLines => (hasLines_iff.mp hLines).symm⟩
  · intro text lines hLines hSeveral width hSame
    exact rows_ofString_eq_iff hLines hSeveral hSame
  · intro text other lines otherLines hLines hOther hHead hTail
    exact ofString_eq_of_lineCells hLines hOther hHead hTail

theorem lines_are_rows_iff_on_trailing_tab :
    (ofString "a\tb\n \nc  d\t").rows = [["a", "b"], ["c", "d"]] ∧
      (ofString "a\tb\t\nc  d").rows ≠ [["a", "b"], ["c", "d"]] ∧
      ofString "a\tb\nc\t\t\n\x0b\nd" = ofString "a\tb\nc\td" := by
  have hLines : HasLines "a\tb\n \nc  d\t" [[['a'], ['b']], [[' ']], [['c'], ['d']]] :=
    hasLines_iff.mpr (by decide)
  have hTab : HasLines "a\tb\t\nc  d" [[['a'], ['b'], []], [['c'], ['d']]] :=
    hasLines_iff.mpr (by decide)
  have hShort : HasLines "a\tb\nc\td" [[['a'], ['b']], [['c'], ['d']]] :=
    hasLines_iff.mpr (by decide)
  have hLong : HasLines "a\tb\nc\t\t\n\x0b\nd"
      [[['a'], ['b']], [['c'], [], []], [['\x0b']], [['d']]] :=
    hasLines_iff.mpr (by decide)
  have hCells : (cellLines [[['a'], ['b']], [[' ']], [['c'], ['d']]]).map (List.map String.ofList) =
      [["a", "b"], ["c", "d"]] := by decide
  obtain ⟨-, hRows, hSame⟩ := lines_are_rows_iff
  have hLinesRows := hRows _ _ hLines (by decide) 2 (by decide)
  have hTabRows := hRows _ _ hTab (by decide) 2 (by decide)
  refine ⟨hCells ▸ hLinesRows.mpr (by simp [blankChars]), fun hEqual => ?_,
    hSame _ _ _ _ hShort hLong rfl (by decide)⟩
  exact absurd (hTabRows.mp hEqual) (by simp)

end PlainSheet.Table
