import PlainSheet.Formula.Function

/-!
Why a cell has no value to show. Each constructor is one cause; the wording is
`SheetError.message`.
-/

namespace PlainSheet

/-- What can be wrong with a request for a cell, or with the formula in it. -/
inductive SheetError where
  /-- The text that should name a cell is no address. -/
  | invalidAddress (text : String)
  /-- The address, as it was written, lies outside the table. -/
  | missingCell (text : String)
  | unknownFunction (name : String)
  /-- A function is called with a number of arguments that it does not take. -/
  | wrongArgumentCount (name : String) (expected : Arity) (got : Nat)
  | invalidExpression (body : String)
  /-- References lead to each other through more cells than the limit allows. -/
  | chainTooLong (limit : Nat)
deriving DecidableEq, Repr

/-- The text by which an error is reported. -/
def SheetError.message : SheetError → String
  | invalidAddress text => "Invalid cell index '" ++ text ++ "'"
  | missingCell text => "Cell '" ++ text ++ "' does not exist"
  | unknownFunction name => "Unknown function '" ++ name ++ "'"
  | wrongArgumentCount name expected got =>
    "Wrong number of arguments for '" ++ name ++ "': expected " ++ expected.display ++
      ", got " ++ toString got
  | invalidExpression body => "Invalid expression '" ++ body ++ "'"
  | chainTooLong limit => "Reference chain exceeds " ++ toString limit ++ " levels"

end PlainSheet
