import PlainSheet.Sheet.Basic
import PlainSheet.Table.Storage

/-!
Sheets in files. A sheet is loaded from the text of its raw contents, and saved as that
text or as the text of what its cells show. Saving evaluates first, so a sheet with a
cell that has no value is not written at all.
-/

namespace PlainSheet

inductive SaveError where
  | sheet (cause : SheetError)
  | file (cause : FileError)
deriving DecidableEq, Repr

namespace Sheet

/-- The sheet in the file at a path, without a limit. -/
def load (tree : FileTree) (path : String) : Except ReadError Sheet :=
  (Table.ofFile path (tree.read path)).map fun table => ⟨table, none⟩

/-- Writes the raw contents, so that the sheet can be loaded again. -/
def saveRaw (sheet : Sheet) (tree : FileTree) (path : String) : Except FileError FileTree :=
  tree.write path sheet.renderRaw.toUTF8

/-- Writes what the cells show, under a separator of cells. Nothing comes of it when
evaluation has no end. -/
def saveRendered (sheet : Sheet) (tree : FileTree) (path separator : String) :
    Option (Except SaveError FileTree) :=
  (sheet.renderWith separator).map fun
    | .error cause => .error (.sheet cause)
    | .ok text => (tree.write path text.toUTF8).mapError .file

end Sheet

end PlainSheet
