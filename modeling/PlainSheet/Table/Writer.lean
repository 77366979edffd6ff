import PlainSheet.Table.Basic

/-!
Writing rows of cells as text. Cells are joined by a separator and rows by newlines,
without a newline at the end.
-/

namespace PlainSheet

def renderRows (rows : List (List String)) (separator : String) : String :=
  "\n".intercalate (rows.map separator.intercalate)

/-- The text of a table's raw contents, from which the table can be read again. -/
def Table.toText (table : Table) : String := renderRows table.rows "\t"

end PlainSheet
