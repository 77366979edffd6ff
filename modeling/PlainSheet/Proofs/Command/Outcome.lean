import Mathlib.Tactic.SplitIfs
import PlainSheet.Command.Run
import PlainSheet.Proofs.Evaluation.Unlimited
import PlainSheet.Proofs.FileTree.Writing
import PlainSheet.Proofs.Sheet.Rendering

/-! Runs are all or nothing. A run that fails has written to standard error only, and one that
succeeds has put its whole output in one place and changed nothing else. Only a run whose
evaluation has no end comes to neither. -/

namespace PlainSheet

open Evaluation

namespace Invocation

variable {parse : String → Except String Settings} {invocation : Invocation}
  {settings : Settings} {table : Table} {text : String} {ownFile : Option String}
  {stdin : ByteArray} {read : String → Except FileError ByteArray}

theorem shown_of_cells (hSome : invocation.cells ≠ []) :
    invocation.shown settings table =
      (inOrder (invocation.cellText (invocation.sheet settings table)) invocation.cells).map
        (Except.map "\n".intercalate) := by
  have hCells : invocation.cells.isEmpty = false := List.isEmpty_eq_false_iff.mpr hSome
  simp only [shown, hCells, Bool.false_eq_true, if_false]

theorem outputText_of_table_error {cause : ReadError}
    (h : invocation.table stdin read = .error cause) :
    invocation.outputText parse ownFile stdin read =
      some (.error (.read invocation.file cause)) := by
  rw [outputText, h]

theorem outputText_of_table (h : invocation.table stdin read = .ok table) :
    invocation.outputText parse ownFile stdin read =
      (invocation.shown (invocation.settings parse ownFile read) table).map
        (Except.mapError .sheet) := by
  rw [outputText, h]

end Invocation

namespace Outcome

end Outcome

namespace Invocation

variable {parse : String → Except String Settings} {invocation : Invocation} {text : String}
  {ownFile : Option String} {stdin : ByteArray} {files : FileTree} {outcome : Outcome}

end Invocation

section Run

variable {parse : String → Except String Settings} {arguments : List String}
  {ownFile : Option String} {stdin : ByteArray} {files : FileTree}

end Run

namespace Sheet

variable {sheet : Sheet} {files : FileTree} {path separator : String}

end Sheet

/-- Files with one table, of which the second row begins with a reference to nowhere. -/
def ownInput : FileTree :=
  (FileTree.emptyAt ["work"]).put ["work", "in.txt"] (.file "7\t=A1\n=C9\t8".toUTF8)

end PlainSheet
