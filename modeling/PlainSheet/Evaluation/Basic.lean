import PlainSheet.Formula.Content
import PlainSheet.Number.Display
import PlainSheet.Number.Leading
import PlainSheet.Table.Basic

/-!
What cell contents show. A number is shown in its display form, a reference shows what
its cell shows, and a formula folds its function over its operands. What is shown is
text throughout: an operand is read back from what its cell shows, so operands are
rounded to hundredths before they are used.

References are followed to a limited depth. What a content shows is defined by
recursion on the number of contents that may be evaluated inside each other. Without a
limit, evaluation may have no end; there is then nothing that it shows, not even an error.
-/

namespace PlainSheet

namespace Evaluation

/-- What a cell shows to a reference, when `inside` evaluates its content. A bare number
shows as `=` and the number would, and is not evaluated. -/
def shownTarget (inside : String → Except SheetError String) (target : String) :
    Except SheetError String :=
  match Numeral.ofString? target with
  | some n => .ok n.value.display
  | none => inside target

/-- What a reference shows, when `inside` evaluates the content it leads to. -/
def shownAt (table : Table) (inside : String → Except SheetError String) (r : Reference) :
    Except SheetError String :=
  match table.follow r with
  | .error cause => .error cause
  | .ok target => shownTarget inside target

/-- The value of an operand, read back from what it shows. -/
def operandValue (table : Table) (inside : String → Except SheetError String) :
    Operand → Except SheetError Binary64
  | .numeral n => .ok (Binary64.ofShown n.value.display)
  | .cell r => (shownAt table inside r).map Binary64.ofShown

/-- What a content shows, when `inside` evaluates the contents it leads to. Operands
are evaluated from left to right, and the first error is that of the formula. -/
def shown (table : Table) (inside : String → Except SheetError String) (raw : String) :
    Except SheetError String :=
  match Content.ofString raw with
  | .number n => .ok n.value.display
  | .reference r => shownAt table inside r
  | .formula f =>
    (f.operands.mapM (operandValue table inside)).map fun values =>
      (f.function.fold values).display
  | .text raw => .ok raw

/-- What a content shows when at most `levels` contents, itself included, are evaluated
inside each other. Where more would be, the answer is `exceeded`. -/
def shownWithin (table : Table) (exceeded : SheetError) :
    Nat → String → Except SheetError String
  | 0, _ => .error exceeded
  | levels + 1, raw => shown table (shownWithin table exceeded levels) raw

/-- How many contents may be evaluated inside each other, and the error beyond that. Where
there is no such error, evaluation that needs more has no end. -/
structure Bound where
  levels : Nat
  exceeded : Option SheetError
deriving DecidableEq, Repr

/-- Evaluates one thing after another, up to the first that fails or has no end. -/
def inOrder {ε α β : Type} (f : α → Option (Except ε β)) :
    List α → Option (Except ε (List β))
  | [] => some (.ok [])
  | a :: rest =>
    match f a with
    | none => none
    | some (.error cause) => some (.error cause)
    | some (.ok b) => (inOrder f rest).map (Except.map (b :: ·))

end Evaluation

/-- The bound that a limit on reference chains sets, or the absence of one. A content is
not counted in the chain of references that leads from it. Without a limit there are
levels for every cell, and no error beyond them: a chain that goes on there has come back
to one of its own cells, and is followed forever. -/
def Table.bound (table : Table) : Option Nat → Evaluation.Bound
  | some limit => ⟨limit + 1, some (.chainTooLong limit)⟩
  | none => ⟨table.cellCount + 1, none⟩

end PlainSheet
