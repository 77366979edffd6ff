import PlainSheet.Evaluation.Findings
import PlainSheet.Formula.Check
import PlainSheet.Table.Reader
import PlainSheet.Table.Writer

/-!
Sheets: a table of raw contents together with the limit under which it is evaluated.
Nothing is kept between requests; each evaluates from the raw contents again. A request
whose evaluation has no end is answered by nothing.
-/

namespace PlainSheet

/-- A table and its limit on reference chains; there may be none. -/
structure Sheet where
  table : Table
  limit : Option Nat
deriving DecidableEq, Repr

namespace Sheet

def ofString (text : String) : Sheet := ⟨Table.ofString text, none⟩

/-- What a content shows in the sheet; its form is not checked. -/
def evaluate (sheet : Sheet) (raw : String) : Option (Except SheetError String) :=
  sheet.table.evaluate sheet.limit raw

def cellAt (sheet : Sheet) (text : String) : Except SheetError String :=
  sheet.table.cellAt text

/-- What the cell that a text names shows, once its content has passed the checks. -/
def get (sheet : Sheet) (text : String) : Option (Except SheetError String) :=
  match sheet.cellAt text with
  | .error cause => some (.error cause)
  | .ok raw =>
    match Check.content raw with
    | .error cause => some (.error cause)
    | .ok () => sheet.evaluate raw

/-- What every cell shows. Contents are not checked here, so a malformed formula shows
itself; the first cell in reading order that has no value decides for all of them. -/
def evaluatedRows (sheet : Sheet) : Option (Except SheetError (List (List String))) :=
  sheet.table.evaluateRows (sheet.table.bound sheet.limit)

/-- The text of what every cell shows, under a separator of cells. -/
def renderWith (sheet : Sheet) (separator : String) : Option (Except SheetError String) :=
  sheet.evaluatedRows.map (Except.map fun rows => renderRows rows separator)

/-- The text of what every cell shows, with tabs between cells. -/
def render (sheet : Sheet) : Option (Except SheetError String) := sheet.renderWith "\t"

def renderRaw (sheet : Sheet) : String := sheet.table.toText

end Sheet

end PlainSheet
