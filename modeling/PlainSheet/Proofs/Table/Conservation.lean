import PlainSheet.Proofs.Table.Canonical

/-! Reading a table keeps the text that it is read from. Cutting takes separators out and drops
blank tokens, and all of these characters are blank; putting cells into rows moves none. So what
is written in the cells is what is written in the text, and edge characters around a text are
nothing to it. -/

namespace PlainSheet

namespace Text

/-- What is written in a text: its characters that are not blank, in their order. -/
def inked (text : List Char) : List Char := text.filter (· ∉ blankChars)

theorem inked_append (first second : List Char) :
    inked (first ++ second) = inked first ++ inked second :=
  List.filter_append first second

theorem inked_cons (c : Char) (text : List Char) : inked (c :: text) = inked [c] ++ inked text :=
  inked_append [c] text

theorem inked_eq_nil_iff {text : List Char} : inked text = [] ↔ ∀ c ∈ text, c ∈ blankChars := by
  simp [inked]

/-- A text that starts with no edge character has something written in it. NUL alone would not
do: it is an edge character that is not blank. -/
theorem inked_ne_nil {text : List Char} (hSome : text ≠ [])
    (hHead : ∀ c ∈ text.head?, c ∉ edgeChars) : inked text ≠ [] := by
  intro hNone
  have hFirst := List.head?_eq_some_head hSome
  have hBlank := inked_eq_nil_iff.mp hNone _ (List.head_mem hSome)
  exact hHead _ hFirst (List.mem_cons_of_mem _ hBlank)

end Text

namespace Table

open Text

/-- Each character is taken into the tokens, or it is a separator and blank. -/
theorem Cut.inked_extend (c : Char) (cut : Cut) :
    inked (cut.extend c).tokens.flatten = inked [c] ++ inked cut.tokens.flatten := by
  have hTab : inked ['\t'] = [] := by decide
  have hSpace : inked [' '] = [] := by decide
  rcases cut.extend_cases c with ⟨rfl, hExtend⟩ | ⟨rfl, current, right, rfl, hExtend⟩ |
    ⟨rfl, right, rfl, hExtend⟩ | ⟨-, current, right, hCut, hExtend, -⟩
  · simp [hExtend, tokens, hTab]
  · simp only [hExtend, tokens, List.flatten_cons, List.nil_append, List.cons_append, hSpace]
    rw [inked_cons ' ', hSpace, List.nil_append]
  · rw [hExtend, hSpace, List.nil_append]
  · rw [hExtend, hCut, ← inked_append]
    rfl

theorem TextCut.inked_extend (c : Char) (cut : TextCut) :
    inked (cut.extend c).lines.flatten.flatten = inked [c] ++ inked cut.lines.flatten.flatten := by
  have hLineFeed : inked ['\n'] = [] := by decide
  by_cases hNewline : c = '\n'
  · simp [extend, hNewline, lines, Cut.tokens, hLineFeed]
  · simp only [extend, if_neg hNewline, lines, List.flatten_cons, List.flatten_append, inked_append,
      Cut.inked_extend, List.append_assoc]

/-- What is written in the tokens of a text is what is written in the text. -/
theorem inked_textTokens (text : List Char) :
    inked (textTokens text).flatten.flatten = inked text := by
  unfold textTokens
  induction text with
  | nil => rfl
  | cons c text ih => rw [List.foldr_cons, TextCut.inked_extend, ih, ← inked_cons]

/-- Nothing is written in the tokens that are dropped as blank. -/
theorem inked_filter_isBlankToken (tokens : List (List Char)) :
    inked (tokens.filter fun token => !isBlankToken token).flatten = inked tokens.flatten := by
  induction tokens with
  | nil => rfl
  | cons token tokens ih =>
      rw [List.flatten_cons, inked_append, ← ih, List.filter_cons]
      cases hBlank : isBlankToken token with
      | false => simp [inked_append]
      | true =>
          have hNone : inked token = [] := by
            simpa [inked_eq_nil_iff, ← isBlank_iff, isBlankToken] using hBlank
          simp [hNone]

/-- The characters of all cells in reading order. -/
def chars (table : Table) : List Char := table.rows.flatten.flatMap String.toList

theorem inked_chars_ofTrimmed (text : List Char) : inked (ofTrimmed text).chars = inked text := by
  have hChars : (ofTrimmed text).chars = (cellTokens text).flatten := by
    simp [chars, flatten_ofTrimmed, List.flatMap_def, Function.comp_def]
  rw [hChars, cellTokens, inked_filter_isBlankToken, inked_textTokens]

theorem rows_ofTrimmed_eq_nil_iff {text : List Char} (hHead : ∀ c ∈ text.head?, c ∉ edgeChars) :
    (ofTrimmed text).rows = [] ↔ text = [] := by
  constructor
  · intro hNone
    by_contra hSome
    apply inked_ne_nil hSome hHead
    rw [← inked_chars_ofTrimmed, chars, hNone]
    rfl
  · rintro rfl
    rw [ofTrimmed_eq rfl, cellTokens_nil, List.map_nil, rowsOfWidth_nil]

/-- Reading a table loses, doubles and reorders nothing: in its cells, row by row, the same is
written as in the trimmed text. A text describes the empty table exactly if all of it is trimmed
off, and it describes the same table with any edge characters before and after it. -/
theorem ofString_conserves (text : String) :
    (∃ core, IsTrimmed text.toList core ∧ inked (ofString text).chars = inked core) ∧
    ((ofString text).isEmpty = true ↔ ∀ c ∈ text.toList, c ∈ edgeChars) ∧
    ∀ before after : String, (∀ c ∈ before.toList, c ∈ edgeChars) →
      (∀ c ∈ after.toList, c ∈ edgeChars) → ofString (before ++ text ++ after) = ofString text := by
  refine ⟨⟨_, isTrimmed_iff.mpr rfl, inked_chars_ofTrimmed _⟩, ?_, ?_⟩
  · rw [isEmpty, List.isEmpty_iff, ofString,
      rows_ofTrimmed_eq_nil_iff fun c hc => isEdge_eq_false_iff.mp (head?_trimBoth hc),
      trimBoth_eq_nil_iff]
    simp only [isEdge_iff]
  · intro before after hBefore hAfter
    rw [ofString, String.toList_append, String.toList_append,
      trimBoth_append _ (fun c hc => isEdge_iff.mpr (hBefore c hc))
        (fun c hc => isEdge_iff.mpr (hAfter c hc)), ofString]

theorem ofString_conserves_on_nul :
    ofString ("\x00 \n" ++ "a\tb  \x0b  c" ++ "\t\x00") = ofString "a\tb  \x0b  c" ∧
      inked (ofString "a\tb  \x0b  c").chars = ['a', 'b', 'c'] := by
  obtain ⟨⟨core, hCore, hInked⟩, -, hSame⟩ := ofString_conserves "a\tb  \x0b  c"
  refine ⟨hSame "\x00 \n" "\t\x00" (by simp [edgeChars, blankChars])
    (by simp [edgeChars, blankChars]), ?_⟩
  rw [hInked, isTrimmed_iff.mp hCore]
  decide

end Table

end PlainSheet
