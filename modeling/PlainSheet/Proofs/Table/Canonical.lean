import PlainSheet.Proofs.Table.Ends
import PlainSheet.Proofs.Table.Rows
import PlainSheet.Proofs.Table.Token
import PlainSheet.Sheet.Basic

/-! Which tables a text can describe, and that exactly these are read back from their own
raw contents. -/

namespace PlainSheet.Table

open Text

/-- Contents that are read as one cell: one token that is not blank. -/
structure IsCell (cell : List Char) : Prop extends IsToken cell where
  notBlank : ∃ c ∈ cell, c ∉ blankChars

/-- The tables that texts describe. Cells may hold single spaces at either end, and other
blank characters anywhere, but the whole table neither starts nor ends with an edge
character. -/
structure Canonical (table : Table) : Prop where
  width : table.rows = [] ∨ ∃ width, 1 ≤ width ∧ HasWidth width table.rows
  cells : ∀ row ∈ table.rows, ∀ cell ∈ row, IsCell cell.toList
  first : ∀ cell ∈ table.rows.flatten.head?, ∀ c ∈ cell.toList.head?, c ∉ edgeChars
  last : ∀ cell ∈ table.rows.flatten.getLast?, ∀ c ∈ cell.toList.getLast?, c ∉ edgeChars

/-- One character that is not blank is enough for a token to be kept, and NUL is not blank. -/
theorem isBlankToken_eq_false_iff {token : List Char} :
    isBlankToken token = false ↔ ∃ c ∈ token, c ∉ blankChars := by
  simp [isBlankToken, ← isBlank_iff]

/-! ### What is read is canonical -/

/-- The tokens of a text that are cells, in reading order. -/
def cellTokens (text : List Char) : List (List Char) :=
  (textTokens text).flatten.filter fun token => !isBlankToken token

/-- There is always a first line with a token, so the rows have a width. -/
theorem exists_textTokens (text : List Char) :
    ∃ line lines, textTokens text = line :: lines ∧ 1 ≤ line.length := by
  -- A line has a token from the start, which is empty until characters are taken in.
  have hLength : ∀ cut : Cut, 1 ≤ cut.tokens.length := by
    intro cut
    cases cut <;> simp [Cut.tokens]
  exact ⟨_, _, rfl, hLength _⟩

/-- The width of the rows is the number of tokens on the first line, blank ones included. -/
theorem ofTrimmed_eq {text : List Char} {line : List (List Char)}
    {lines : List (List (List Char))} (hTokens : textTokens text = line :: lines) :
    ofTrimmed text = ⟨rowsOfWidth line.length ((cellTokens text).map String.ofList)⟩ := by
  rw [ofTrimmed, cellTokens, hTokens, ofLines]

/-- Cutting the cells into rows leaves their order as it is. -/
theorem flatten_ofTrimmed (text : List Char) :
    (ofTrimmed text).rows.flatten = (cellTokens text).map String.ofList := by
  obtain ⟨line, lines, hTokens, -⟩ := exists_textTokens text
  rw [ofTrimmed_eq hTokens, flatten_rowsOfWidth]

theorem cellTokens_nil : cellTokens [] = [] := rfl

theorem isCell_of_mem_cellTokens {text token : List Char} (h : token ∈ cellTokens text) :
    IsCell token := by
  obtain ⟨hToken, hKept⟩ := List.mem_filter.mp h
  obtain ⟨line, hLine, hToken⟩ := List.mem_flatten.mp hToken
  rw [Bool.not_eq_true'] at hKept
  exact ⟨isToken_of_mem_textTokens line hLine token hToken, isBlankToken_eq_false_iff.mp hKept⟩

theorem not_isBlankToken_of_mem {token : List Char} {c : Char} (hMem : c ∈ token)
    (hc : c ∉ edgeChars) : isBlankToken token = false :=
  isBlankToken_eq_false_iff.mpr ⟨c, hMem, not_mem_blankChars hc⟩

/-- No text is cut at a character that is no edge character. -/
theorem ne_of_not_mem_edgeChars {c : Char} (hc : c ∉ edgeChars) :
    c ≠ '\t' ∧ c ≠ '\n' ∧ c ≠ ' ' := by
  simp only [edgeChars, blankChars, List.mem_cons, not_or] at hc
  exact ⟨hc.2.2.1, hc.2.2.2.1, hc.2.1⟩

/-- A text that does not begin with an edge character has that beginning in its first cell. -/
theorem head?_cellTokens {text : List Char} (hHead : ∀ c ∈ text.head?, c ∉ edgeChars) :
    ∀ token ∈ (cellTokens text).head?, ∀ c ∈ token.head?, c ∉ edgeChars := by
  cases text with
  | nil => simp [cellTokens_nil]
  | cons c text =>
      have hc := hHead c rfl
      obtain ⟨hTab, hNewline, hSpace⟩ := ne_of_not_mem_edgeChars hc
      obtain ⟨token, line, lines, hTokens⟩ := textTokens_cons text hTab hNewline hSpace
      have hKept := not_isBlankToken_of_mem (List.mem_cons_self (a := c) (l := token)) hc
      simpa [cellTokens, hTokens, hKept] using hc

/-- A token that ends with such a character is not blank, so it stays the last one. -/
theorem EndsWith.filter {c : Char} {tokens : List (List Char)} (hc : c ∉ edgeChars)
    (h : EndsWith c tokens) : EndsWith c (tokens.filter fun token => !isBlankToken token) := by
  obtain ⟨token, hToken, hLast⟩ := h
  obtain ⟨before, rfl⟩ := List.getLast?_eq_some_iff.mp hToken
  have hKept := not_isBlankToken_of_mem (List.mem_of_getLast? hLast) hc
  exact ⟨token, by simp [hKept], hLast⟩

/-- A text that does not end with an edge character has that ending in its last cell. -/
theorem getLast?_cellTokens {text : List Char} (hLast : ∀ c ∈ text.getLast?, c ∉ edgeChars) :
    ∀ token ∈ (cellTokens text).getLast?, ∀ c ∈ token.getLast?, c ∉ edgeChars := by
  rcases List.eq_nil_or_concat text with rfl | ⟨front, c, rfl⟩
  · simp [cellTokens_nil]
  · rw [List.concat_eq_append] at hLast ⊢
    have hc := hLast c (by simp)
    obtain ⟨hTab, hNewline, hSpace⟩ := ne_of_not_mem_edgeChars hc
    obtain ⟨token, hToken, hEnd⟩ := (textTokens_concat front hTab hNewline hSpace).filter hc
    intro other hOther d hd
    cases Option.mem_unique hToken hOther
    cases Option.mem_unique hEnd hd
    exact hc

/-- A text without edge characters at either end describes a canonical table. -/
theorem canonical_ofTrimmed {text : List Char} (hHead : ∀ c ∈ text.head?, c ∉ edgeChars)
    (hLast : ∀ c ∈ text.getLast?, c ∉ edgeChars) : (ofTrimmed text).Canonical := by
  obtain ⟨line, lines, hTokens, hWidth⟩ := exists_textTokens text
  constructor
  · rw [ofTrimmed_eq hTokens]
    by_cases hSome : (cellTokens text).map String.ofList = []
    · rw [hSome]
      exact .inl (rowsOfWidth_nil _)
    · exact .inr ⟨_, hWidth, hasWidth_rowsOfWidth hWidth _ hSome⟩
  · intro row hRow cell hCell
    have hMem := List.mem_flatten_of_mem hRow hCell
    rw [flatten_ofTrimmed] at hMem
    obtain ⟨token, hToken, rfl⟩ := List.mem_map.mp hMem
    rw [String.toList_ofList]
    exact isCell_of_mem_cellTokens hToken
  · rw [flatten_ofTrimmed, List.head?_map]
    simpa using head?_cellTokens hHead
  · rw [flatten_ofTrimmed, List.getLast?_map]
    simpa using getLast?_cellTokens hLast

theorem canonical_ofString (text : String) : (ofString text).Canonical :=
  canonical_ofTrimmed (fun _ h => isEdge_eq_false_iff.mp (head?_trimBoth h))
    (fun _ h => isEdge_eq_false_iff.mp (getLast?_trimBoth h))

/-! ### A canonical table is read back -/

/-- The characters of the cells of rows. -/
def rowTokens (rows : List (List String)) : List (List (List Char)) :=
  rows.map fun row => row.map String.toList

/-- The characters of the raw contents, with tabs between cells and newlines between rows. -/
theorem toText_toList (table : Table) :
    table.toText.toList = ['\n'].intercalate ((rowTokens table.rows).map ['\t'].intercalate) := by
  rw [toText, renderRows, String.toList_intercalate, List.map_map, rowTokens, List.map_map]
  congr 2
  funext row
  exact String.toList_intercalate

variable {cell : String} {cells : List String} {rows : List (List String)} {c : Char}

theorem head?_toText (hc : cell.toList.head? = some c) :
    (Table.mk ((cell :: cells) :: rows)).toText.toList.head? = some c := by
  rw [toText_toList]
  exact head?_intercalate _ (head?_intercalate _ hc)

theorem getLast?_toText (hc : cell.toList.getLast? = some c) :
    (Table.mk (rows ++ [cells ++ [cell]])).toText.toList.getLast? = some c := by
  rw [toText_toList]
  simp only [rowTokens, List.map_append, List.map_cons, List.map_nil]
  exact getLast?_intercalate _ (getLast?_intercalate _ hc)

theorem IsCell.ne_nil {cell : List Char} (h : IsCell cell) : cell ≠ [] := by
  obtain ⟨c, hc, -⟩ := h.notBlank
  exact List.ne_nil_of_mem hc

theorem HasWidth.eq_append {width : Nat} (hRows : HasWidth width rows) (hWidth : 1 ≤ width) :
    ∃ front cells cell, rows = front ++ [cells ++ [cell]] := by
  obtain ⟨front, row, rfl⟩ := (List.eq_nil_or_concat rows).resolve_left (by
    intro h
    cases h
    cases hRows)
  have hRow := hRows.length_pos hWidth row (by simp)
  obtain ⟨cells, cell, rfl⟩ := (List.eq_nil_or_concat row).resolve_left (by
    intro h
    simp [h] at hRow)
  exact ⟨front, cells, cell, by simp⟩

theorem HasWidth.eq_cons {width : Nat} (hRows : HasWidth width rows) (hWidth : 1 ≤ width) :
    ∃ cell cells rest, rows = (cell :: cells) :: rest := by
  have hLength := hRows.length_pos hWidth
  match rows, hRows, hLength with
  | (cell :: cells) :: rest, _, _ => exact ⟨cell, cells, rest, rfl⟩
  | [] :: rest, _, hLength => simp at hLength

namespace Canonical

variable {table : Table}

theorem ne_nil_of_mem (h : table.Canonical) : ∀ row ∈ table.rows, row ≠ [] := by
  intro row hRow
  obtain ⟨width, hWidth, hRows⟩ := h.width.resolve_left (List.ne_nil_of_mem hRow)
  exact List.ne_nil_of_length_pos (hRows.length_pos hWidth row hRow)

/-- Nothing is trimmed off the raw contents of a canonical table. -/
theorem trimBoth_toText (h : table.Canonical) :
    trimBoth isEdge table.toText.toList = table.toText.toList := by
  obtain ⟨rows⟩ := table
  rcases h.width with hNone | ⟨width, hWidth, hRows⟩
  · cases hNone
    rfl
  · apply trimBoth_eq_self
    · -- The raw contents begin as the first cell does, and they end as the last one does.
      obtain ⟨cell, cells, rest, rfl⟩ := hRows.eq_cons hWidth
      have hCell := h.cells _ (List.mem_cons_self ..) _ (List.mem_cons_self ..)
      have hHead := List.head?_eq_some_head hCell.ne_nil
      have hEdge := h.first cell (by simp) _ hHead
      rw [head?_toText hHead]
      simpa [isEdge_eq_false_iff] using hEdge
    · obtain ⟨front, cells, cell, rfl⟩ := hRows.eq_append hWidth
      have hCell := h.cells _ (List.mem_append_right _ (List.mem_singleton_self _)) cell (by simp)
      have hLast := List.getLast?_eq_some_getLast hCell.ne_nil
      have hEdge := h.last cell (by simp) _ hLast
      rw [getLast?_toText hLast]
      simpa [isEdge_eq_false_iff] using hEdge

/-- The raw contents of a canonical table are cut where its cells were joined, since no cell holds
a separator. -/
theorem textTokens_toText (h : table.Canonical) (hSome : table.rows ≠ []) :
    textTokens table.toText.toList = rowTokens table.rows := by
  obtain ⟨width, hWidth, hRows⟩ := h.width.resolve_left hSome
  rw [toText_toList, rowTokens]
  apply textTokens_intercalate
  · simpa using hSome
  · simpa [Nat.one_le_iff_ne_zero] using h.ne_nil_of_mem
  · intro line hLine token hToken
    obtain ⟨row, hRow, rfl⟩ := List.mem_map.mp hLine
    obtain ⟨cell, hCell, rfl⟩ := List.mem_map.mp hToken
    exact (h.cells row hRow cell hCell).toIsToken

/-- No cell of a canonical table is dropped as blank. -/
theorem cellTokens_toText (h : table.Canonical) (hSome : table.rows ≠ []) :
    (cellTokens table.toText.toList).map String.ofList = table.rows.flatten := by
  have hKept : ∀ token ∈ (rowTokens table.rows).flatten, (!isBlankToken token) = true := by
    intro token hToken
    obtain ⟨line, hLine, hToken⟩ := List.mem_flatten.mp hToken
    obtain ⟨row, hRow, rfl⟩ := List.mem_map.mp hLine
    obtain ⟨cell, hCell, rfl⟩ := List.mem_map.mp hToken
    rw [isBlankToken_eq_false_iff.mpr (h.cells row hRow cell hCell).notBlank]
    rfl
  rw [cellTokens, h.textTokens_toText hSome, List.filter_eq_self.mpr hKept, rowTokens,
    ← List.map_flatten]
  simp [Function.comp_def]

/-- The first row of a canonical table gives its width, so the cells are cut into the same rows
again. -/
theorem ofString_toText (h : table.Canonical) : ofString table.toText = table := by
  rw [ofString, h.trimBoth_toText]
  obtain ⟨rows⟩ := table
  rcases h.width with hNone | ⟨width, hWidth, hRows⟩
  · cases hNone
    have hTokens : textTokens [] = [[[]]] := rfl
    show ofTrimmed [] = ⟨[]⟩
    rw [ofTrimmed_eq hTokens, cellTokens_nil, List.map_nil, rowsOfWidth_nil]
  · obtain ⟨cell, cells, rest, rfl⟩ := hRows.eq_cons hWidth
    rw [ofTrimmed_eq (h.textTokens_toText (by simp)), h.cellTokens_toText (by simp),
      List.length_map, hRows.length_head.rowsOfWidth_flatten (by simp)]

end Canonical

/-- Every text describes a canonical table, and a table is read back from its own raw
contents exactly if it is canonical, that is, if some text describes it. -/
theorem canonical_exact :
    (∀ text, (ofString text).Canonical) ∧
      (∀ table : Table, table.Canonical ↔ ofString table.toText = table) ∧
      (∀ table : Table, table.Canonical ↔ ∃ text, ofString text = table) ∧
      ∀ text, Sheet.ofString (Sheet.ofString text).renderRaw = Sheet.ofString text := by
  refine ⟨canonical_ofString, fun table => ⟨Canonical.ofString_toText, fun h => ?_⟩,
    fun table => ⟨fun h => ⟨_, h.ofString_toText⟩, fun h => ?_⟩, fun text => ?_⟩
  · rw [← h]
    exact canonical_ofString _
  · obtain ⟨text, rfl⟩ := h
    exact canonical_ofString text
  · exact congrArg (Sheet.mk · none) (canonical_ofString text).ofString_toText

end PlainSheet.Table
