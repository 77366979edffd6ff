import PlainSheet.Proofs.Sheet.Rendering
import PlainSheet.Proofs.Table.Canonical

/-! Reading back what a sheet shows. Every cell of a table that was read from text shows
something that is one cell again, in rows of the same width. So what the whole sheet shows is
read back unless references have brought an edge character to one of its two ends, and a sheet
that was read back shows itself. -/

namespace PlainSheet

open Text Evaluation

theorem Binary64.not_mem_edgeChars_of_isDisplayChar {c : Char} (h : isDisplayChar c = true) :
    c ∉ edgeChars := by
  intro hEdge
  simp only [edgeChars, blankChars, List.mem_cons, List.not_mem_nil, or_false] at hEdge
  rcases hEdge with rfl | rfl | rfl | rfl | rfl | rfl | rfl <;> exact absurd h (by decide)

namespace Table

/-- A text without blank characters is one cell, unless it is empty. -/
theorem isCell_of_not_mem_blankChars {cell : List Char} (hSome : cell ≠ [])
    (h : ∀ c ∈ cell, c ∉ blankChars) : IsCell cell where
  noTab hMem := h _ hMem (by decide)
  noNewline hMem := h _ hMem (by decide)
  noSpaces hInfix := h ' ' (hInfix.subset (by simp)) (by decide)
  notBlank := by
    obtain ⟨c, hc⟩ := List.exists_mem_of_ne_nil cell hSome
    exact ⟨c, hc, h c hc⟩

theorem isCell_display (value : Binary64) : IsCell value.display.toList := by
  apply isCell_of_not_mem_blankChars value.display_ne_nil
  intro c hc
  have hDisplay := Binary64.isDisplayChar_of_mem_display hc
  exact not_mem_blankChars (Binary64.not_mem_edgeChars_of_isDisplayChar hDisplay)

/-- Rows that are as long as others have their width. -/
theorem HasWidth.of_map_length {α β : Type} {width : Nat} {rows : List (List α)}
    {others : List (List β)} (hRows : HasWidth width rows)
    (hLength : others.map List.length = rows.map List.length) : HasWidth width others := by
  induction hRows generalizing others with
  | last hSome hRow =>
      obtain ⟨other, rfl, hOther⟩ := List.map_eq_singleton_iff.mp hLength
      exact .last (hOther ▸ hSome) (hOther ▸ hRow)
  | cons hRow _ ih =>
      obtain ⟨other, rest, rfl, hOther, hRest⟩ := List.map_eq_cons_iff.mp hLength
      exact .cons (hOther.trans hRow) (ih hRest)

variable {table : Table} {limit : Option Nat} {raw shown : String}

theorem mem_flatten_of_contentAt {address : Address} (h : table.contentAt address = some raw) :
    raw ∈ table.rows.flatten := by
  obtain ⟨row, column, cells, -, hCells, hContent⟩ := contentAt_eq_some_iff.mp h
  exact List.mem_flatten_of_mem (List.mem_of_getElem? hCells) (List.mem_of_getElem? hContent)

/-- A cell shows the display of a number, or the content of a cell that is text. -/
theorem display_or_content_of_evaluate (hRaw : raw ∈ table.rows.flatten)
    (h : table.evaluate limit raw = some (.ok shown)) :
    (∃ value : Binary64, shown = value.display) ∨
      shown ∈ table.rows.flatten ∧ Content.ofString shown = .text shown := by
  rw [evaluate_eq_ok_iff_shownWithin (.chainTooLong 0)] at h
  rcases display_or_text_of_ok h with hDisplay | ⟨hText, cells, hPath⟩
  · exact .inl hDisplay
  · refine .inr ⟨?_, hText⟩
    rcases List.eq_nil_or_concat cells with rfl | ⟨front, address, rfl⟩
    · cases hPath
      exact hRaw
    · rw [List.concat_eq_append] at hPath
      exact mem_flatten_of_contentAt hPath.contentAt_last

end Table

namespace Sheet

variable {sheet : Sheet} {shown : List (List String)} {cell : String}

theorem exists_of_mem_shown (h : sheet.evaluatedRows = some (.ok shown))
    (hCell : cell ∈ shown.flatten) :
    ∃ raw ∈ sheet.table.rows.flatten, sheet.evaluate raw = some (.ok cell) := by
  have hCells := List.rel_flatten (evaluatedRows_eq_ok_iff.mp h)
  obtain ⟨place, hPlace⟩ := List.mem_iff_getElem?.mp hCell
  obtain ⟨raw, hRaw, hShown⟩ := getElem?_of_forall₂ hCells.flip hPlace
  exact ⟨raw, List.mem_of_getElem? hRaw, hShown⟩

/-- All that a sheet shows is text, and shows itself. -/
theorem content_of_mem_shown (h : sheet.evaluatedRows = some (.ok shown))
    (hCell : cell ∈ shown.flatten) : Content.ofString cell = .text cell := by
  obtain ⟨raw, hRaw, hShown⟩ := exists_of_mem_shown h hCell
  rcases Table.display_or_content_of_evaluate hRaw hShown with ⟨value, rfl⟩ | ⟨-, hText⟩
  · exact Content.ofString_display value
  · exact hText

theorem isCell_of_mem_shown (hTable : sheet.table.Canonical)
    (h : sheet.evaluatedRows = some (.ok shown)) (hCell : cell ∈ shown.flatten) :
    Table.IsCell cell.toList := by
  obtain ⟨raw, hRaw, hShown⟩ := exists_of_mem_shown h hCell
  rcases Table.display_or_content_of_evaluate hRaw hShown with ⟨value, rfl⟩ | ⟨hContent, -⟩
  · exact Table.isCell_display value
  · obtain ⟨row, hRow, hContent⟩ := List.mem_flatten.mp hContent
    exact hTable.cells row hRow cell hContent

/-- The first character of the first cell. -/
def firstChar? (rows : List (List String)) : Option Char :=
  rows.flatten.head?.bind fun cell => cell.toList.head?

/-- The last character of the last cell. -/
def lastChar? (rows : List (List String)) : Option Char :=
  rows.flatten.getLast?.bind fun cell => cell.toList.getLast?

/-- What a sheet with a canonical table shows is a canonical table again, unless an edge
character stands at one of its two ends. -/
theorem canonical_shown_iff (hTable : sheet.table.Canonical)
    (h : sheet.evaluatedRows = some (.ok shown)) :
    (Table.mk shown).Canonical ↔
      (∀ c ∈ firstChar? shown, c ∉ edgeChars) ∧ ∀ c ∈ lastChar? shown, c ∉ edgeChars := by
  constructor
  · intro hShown
    constructor
    · intro c hc
      obtain ⟨cell, hCell, hc⟩ := Option.bind_eq_some_iff.mp hc
      exact hShown.first cell hCell c hc
    · intro c hc
      obtain ⟨cell, hCell, hc⟩ := Option.bind_eq_some_iff.mp hc
      exact hShown.last cell hCell c hc
  · intro hEnds
    have hLength := map_length_of_evaluatedRows h
    constructor
    · rcases hTable.width with hNone | ⟨width, hWidth, hRows⟩
      · left
        simpa [hNone] using hLength
      · exact .inr ⟨width, hWidth, hRows.of_map_length hLength⟩
    · intro row hRow cell hCell
      exact isCell_of_mem_shown hTable h (List.mem_flatten_of_mem hRow hCell)
    · intro cell hCell c hc
      exact hEnds.1 c (Option.bind_eq_some_iff.mpr ⟨cell, hCell, hc⟩)
    · intro cell hCell c hc
      exact hEnds.2 c (Option.bind_eq_some_iff.mpr ⟨cell, hCell, hc⟩)

/-- Cells that are one cell each have a first character and a last one. -/
theorem exists_ends (hTable : sheet.table.Canonical) (h : sheet.evaluatedRows = some (.ok shown))
    (hSome : sheet.table.isEmpty = false) :
    ∃ first last, firstChar? shown = some first ∧ lastChar? shown = some last := by
  have hCells : ∀ cell ∈ shown.flatten, Table.IsCell cell.toList :=
    fun _ => isCell_of_mem_shown hTable h
  have hFlatten : shown.flatten ≠ [] := by
    obtain ⟨width, hWidth, hRows⟩ := hTable.width.resolve_left (by
      simpa [Table.isEmpty] using hSome)
    obtain ⟨cell, cells, rest, rfl⟩ :=
      (hRows.of_map_length (map_length_of_evaluatedRows h)).eq_cons hWidth
    simp
  have hFirst := List.head?_eq_some_head (hCells _ (List.head_mem hFlatten)).ne_nil
  have hLast := List.getLast?_eq_some_getLast (hCells _ (List.getLast_mem hFlatten)).ne_nil
  simp only [firstChar?, lastChar?, List.head?_eq_some_head hFlatten,
    List.getLast?_eq_some_getLast hFlatten, Option.bind_some]
  exact ⟨_, _, hFirst, hLast⟩

theorem render_of_evaluatedRows (h : sheet.evaluatedRows = some (.ok shown)) :
    sheet.render = some (.ok (Table.mk shown).toText) := by
  rw [render, renderWith, h]
  rfl

/-- Rows of texts show themselves, under every limit. -/
theorem evaluatedRows_of_text (limit : Option Nat)
    (h : ∀ cell ∈ shown.flatten, Content.ofString cell = .text cell) :
    evaluatedRows ⟨⟨shown⟩, limit⟩ = some (.ok shown) := by
  rw [evaluatedRows_eq_ok_iff, List.forall₂_same]
  intro row hRow
  rw [List.forall₂_same]
  intro cell hCell
  exact evaluate_of_text (h cell (List.mem_flatten_of_mem hRow hCell))

/-- A sheet that was read from a text is read back from what it shows exactly if this neither
starts nor ends with an edge character. The sheet that is read back then shows the same text
under every limit. -/
theorem render_read_back {text : String} {limit : Option Nat}
    (hSome : (Table.ofString text).isEmpty = false)
    (hShown : (Sheet.mk (Table.ofString text) limit).evaluatedRows = some (.ok shown)) :
    ∃ rendered first last, (Sheet.mk (Table.ofString text) limit).render = some (.ok rendered) ∧
      firstChar? shown = some first ∧ lastChar? shown = some last ∧
      ((Table.ofString rendered).rows = shown ↔ first ∉ edgeChars ∧ last ∉ edgeChars) ∧
      (first ∉ edgeChars ∧ last ∉ edgeChars →
        ∀ other, (Sheet.mk (Table.ofString rendered) other).render = some (.ok rendered)) := by
  have hTable := Table.canonical_ofString text
  obtain ⟨first, last, hFirst, hLast⟩ := exists_ends hTable hShown hSome
  have hCanonical : (Table.mk shown).Canonical ↔ first ∉ edgeChars ∧ last ∉ edgeChars := by
    rw [canonical_shown_iff hTable hShown, hFirst, hLast]
    simp
  refine ⟨_, first, last, render_of_evaluatedRows hShown, hFirst, hLast, ⟨?_, ?_⟩, ?_⟩
  · intro hRows
    rw [← hCanonical, ← hRows]
    exact Table.canonical_ofString _
  · intro hEnds
    rw [(hCanonical.mpr hEnds).ofString_toText]
  · intro hEnds other
    rw [(hCanonical.mpr hEnds).ofString_toText]
    apply render_of_evaluatedRows
    apply evaluatedRows_of_text
    intro cell
    exact content_of_mem_shown hShown

theorem render_read_back_on_moved_space :
    let moved : Sheet := ⟨Table.ofString "=B1\t x y\n5\t=A2", some 1⟩
    let kept : Sheet := ⟨Table.ofString "=B1\tx y\n5\t=A2", some 1⟩
    moved.evaluatedRows = some (.ok [[" x y", " x y"], ["5", "5"]]) ∧
      kept.evaluatedRows = some (.ok [["x y", "x y"], ["5", "5"]]) ∧
      (∃ rendered, moved.render = some (.ok rendered) ∧
        (Table.ofString rendered).rows ≠ [[" x y", " x y"], ["5", "5"]]) ∧
      ∃ rendered, kept.render = some (.ok rendered) ∧
        (Table.ofString rendered).rows = [["x y", "x y"], ["5", "5"]] ∧
        ∀ other, (Sheet.mk (Table.ofString rendered) other).render = some (.ok rendered) := by
  intro moved kept
  have hEvaluate : ∀ table : Table,
      (Sheet.mk table (some 1)).evaluate =
        fun raw => some (shownWithin table (.chainTooLong 1) 2 raw) :=
    fun table => funext (table.evaluate_some 1)
  have hMoved : moved.evaluatedRows = some (.ok [[" x y", " x y"], ["5", "5"]]) := by
    rw [evaluatedRows_eq, hEvaluate]
    decide +kernel
  have hKept : kept.evaluatedRows = some (.ok [["x y", "x y"], ["5", "5"]]) := by
    rw [evaluatedRows_eq, hEvaluate]
    decide +kernel
  obtain ⟨rendered, first, last, hRender, hFirst, -, hRows, -⟩ :=
    render_read_back (by decide +kernel) hMoved
  obtain ⟨rendered', first', last', hRender', hFirst', hLast', hRows', hAgain⟩ :=
    render_read_back (by decide +kernel) hKept
  refine ⟨hMoved, hKept, ⟨rendered, hRender, fun hSame => ?_⟩, rendered', hRender', ?_⟩
  · cases hFirst
    exact absurd (hRows.mp hSame).1 (by decide)
  · cases hFirst'
    cases hLast'
    exact ⟨hRows'.mpr (by decide), hAgain (by decide)⟩

end Sheet

end PlainSheet
