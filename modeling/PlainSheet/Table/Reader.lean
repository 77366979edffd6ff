import PlainSheet.Table.Basic
import PlainSheet.Text.Blank

/-!
Reading a table from text. Lines end at newlines and cells at tabs and at two or more
spaces. The first line fixes how many cells a row has; all cells are then put into
rows of that width in reading order, so a line need not be a row.
-/

namespace PlainSheet.Table

/-- A line on its way to being cut, seen from its right end. -/
inductive Cut where
  /-- A token has begun, and these tokens stand right of it. -/
  | token (current : List Char) (tokens : List (List Char))
  /-- A run of two or more spaces has begun, and these tokens stand right of it. -/
  | gap (tokens : List (List Char))

namespace Cut

/-- Takes in the character left of what was cut so far. A tab parts two tokens. A
second space turns the space before it into the beginning of a run of spaces. -/
def extend (c : Char) : Cut → Cut
  | token current tokens =>
    if c = '\t' then token [] (current :: tokens)
    else if c = ' ' then
      match current with
      | ' ' :: rest => gap (rest :: tokens)
      | _ => token (c :: current) tokens
    else token (c :: current) tokens
  | gap tokens =>
    if c = '\t' then token [] ([] :: tokens)
    else if c = ' ' then gap tokens
    else token [c] tokens

/-- The tokens once the left end is reached. -/
def tokens : Cut → List (List Char)
  | token current right => current :: right
  | gap right => [] :: right

end Cut

/-- The tokens of a line: what stands between its tabs and runs of spaces, empty
tokens included. -/
def lineTokens (line : List Char) : List (List Char) :=
  (line.foldr Cut.extend (.token [] [])).tokens

/-- A text on its way to being cut, seen from its right end: its first line as far as it
is seen, and the tokens of the lines below. -/
structure TextCut where
  line : Cut
  below : List (List (List Char))

namespace TextCut

/-- Takes in the character left of what was cut so far. A newline parts two lines. -/
def extend (c : Char) (cut : TextCut) : TextCut :=
  if c = '\n' then ⟨.token [] [], cut.line.tokens :: cut.below⟩
  else ⟨cut.line.extend c, cut.below⟩

/-- The tokens of all lines once the left end is reached. -/
def lines (cut : TextCut) : List (List (List Char)) := cut.line.tokens :: cut.below

end TextCut

/-- The tokens of the lines of a text. -/
def textTokens (text : List Char) : List (List (List Char)) :=
  (text.foldr TextCut.extend ⟨.token [] [], []⟩).lines

theorem foldr_extend_eq (text : List Char) :
    ∃ line below,
      text.splitOn '\n' = line :: below ∧
        text.foldr TextCut.extend ⟨.token [] [], []⟩ =
          ⟨line.foldr Cut.extend (.token [] []), below.map lineTokens⟩ := by
  induction text with
  | nil => exact ⟨[], [], List.splitOn_nil _, rfl⟩
  | cons c text ih =>
    obtain ⟨line, below, hSplit, hCut⟩ := ih
    rw [List.foldr_cons, hCut, TextCut.extend]
    rw [List.splitOn] at hSplit
    rw [List.splitOn, List.splitOnP_cons_eq_if_modifyHead, hSplit]
    by_cases hNewline : c = '\n'
    · rw [if_pos hNewline, if_pos (beq_iff_eq.mpr hNewline)]
      exact ⟨[], line :: below, rfl, rfl⟩
    · rw [if_neg hNewline, if_neg (by simpa using hNewline)]
      exact ⟨c :: line, below, rfl, rfl⟩

/-- The lines of a text end at its newlines, and each is cut by itself. -/
theorem textTokens_eq (text : List Char) :
    textTokens text = (text.splitOn '\n').map lineTokens := by
  obtain ⟨line, below, hSplit, hCut⟩ := foldr_extend_eq text
  rw [textTokens, hCut, hSplit]
  rfl

/-- Whether a token is no cell, because it holds blank characters only. -/
def isBlankToken (token : List Char) : Bool := token.all Text.isBlank

/-- Cuts a list into rows of a width, of which the last may be shorter. Rows done
before are kept in reverse. A width of zero counts as one. -/
def cutRows {α : Type} (width : Nat) (done : List (List α)) (cells : List α) : List (List α) :=
  match cells with
  | [] => done.reverse
  | cell :: others =>
    cutRows width ((cell :: others.take (width - 1)) :: done) (others.drop (width - 1))
termination_by cells.length
decreasing_by
  simp only [List.length_drop, List.length_cons]
  omega

/-- The rows of a width that a list of cells is put into. -/
def rowsOfWidth {α : Type} (width : Nat) (cells : List α) : List (List α) :=
  cutRows width [] cells

theorem flatten_cutRows {α : Type} (width : Nat) (done : List (List α)) (cells : List α) :
    (cutRows width done cells).flatten = done.reverse.flatten ++ cells := by
  fun_induction cutRows width done cells with
  | case1 done => simp
  | case2 done cell others ih => simp [ih]

/-- Cells keep their order when they are put into rows, and none is lost. -/
theorem flatten_rowsOfWidth {α : Type} (width : Nat) (cells : List α) :
    (rowsOfWidth width cells).flatten = cells := by
  simp [rowsOfWidth, flatten_cutRows]

/-- The table of lines that were cut into tokens. The tokens of the first line, blank
ones included, give the width of the rows; blank tokens are no cells. -/
def ofLines : List (List (List Char)) → Table
  | [] => empty
  | first :: others =>
    let cells := (first :: others).flatten.filter fun token => !isBlankToken token
    ⟨rowsOfWidth first.length (cells.map String.ofList)⟩

/-- The table of a text without blank characters at its ends. -/
def ofTrimmed (text : List Char) : Table :=
  ofLines (textTokens text)

/-- The table that a text describes. -/
def ofString (text : String) : Table :=
  ofTrimmed (Text.trimBoth Text.isEdge text.toList)

end PlainSheet.Table
