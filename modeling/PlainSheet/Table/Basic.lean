import PlainSheet.Address
import PlainSheet.SheetError

/-!
Tables of raw cell contents. A table is a list of rows, and rows may differ in
length.
-/

namespace PlainSheet

/-- The raw contents of a sheet, row by row. -/
structure Table where
  rows : List (List String)
deriving DecidableEq, Repr

namespace Table

def empty : Table := ⟨[]⟩

def isEmpty (table : Table) : Bool := table.rows.isEmpty

def rowCount (table : Table) : Nat := table.rows.length

/-- The number of cells in all rows. -/
def cellCount (table : Table) : Nat := table.rows.flatten.length

/-- The content at a position counted from one, if there is a cell. -/
def get? (table : Table) : Nat → Nat → Option String
  | row + 1, column + 1 => table.rows[row]?.bind fun cells => cells[column]?
  | _, _ => none

/-- The content that a reference points at. -/
def follow (table : Table) (r : Reference) : Except SheetError String :=
  match table.get? r.address.row r.address.column with
  | some content => .ok content
  | none => .error (.missingCell r.text)

/-- The content at an address that is given as text. -/
def cellAt (table : Table) (text : String) : Except SheetError String :=
  match Reference.ofString? text with
  | some r => table.follow r
  | none => .error (.invalidAddress text)

end Table

end PlainSheet
