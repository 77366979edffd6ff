import PlainSheet.Formula.Content
import PlainSheet.SheetError

/-!
The checks that a cell passes before its value is shown. They look at a formula in
three steps, the function's name, the number of arguments and the whole expression,
and report the first that fails.
-/

namespace PlainSheet.Check

/-- A body at its first opening parenthesis: the name before it and what follows it.
A body without one is not split. -/
def splitCall? (body : List Char) : Option (List Char × List Char) :=
  match body.dropWhile (· != '(') with
  | _ :: afterParenthesis => some (body.takeWhile (· != '('), afterParenthesis)
  | [] => none

/-- The text before the last closing parenthesis, if there is one. -/
def beforeLastClosing? (text : List Char) : Option (List Char) :=
  match text.reverse.dropWhile (· != ')') with
  | _ :: before => some before.reverse
  | [] => none

/-- How many arguments stand between the first opening and the last closing
parenthesis: one more than there are commas, but none when nothing stands there or
nothing closes. -/
def argumentCount (afterParenthesis : List Char) : Nat :=
  match beforeLastClosing? afterParenthesis with
  | none | some [] => 0
  | some arguments => arguments.count ',' + 1

/-- The name before the first parenthesis must be that of a function. A body is let
through when it has no such name or when nothing closes the parenthesis. -/
def functionName (body : List Char) : Except SheetError Unit :=
  match splitCall? body with
  | none => .ok ()
  | some (name, rest) =>
    if name.isEmpty || !rest.contains ')' || (Function.ofName? (String.ofList name)).isSome then
      .ok ()
    else
      .error (.unknownFunction (String.ofList name))

/-- The number of arguments must be one that the function takes. -/
def arguments (body : List Char) : Except SheetError Unit :=
  match splitCall? body with
  | none => .ok ()
  | some (name, rest) =>
    match Function.ofName? (String.ofList name) with
    | none => .ok ()
    | some f =>
      if f.arity.accepts (argumentCount rest) then .ok ()
      else .error (.wrongArgumentCount (String.ofList name) f.arity (argumentCount rest))

def expression (body : List Char) : Except SheetError Unit :=
  match Call.ofChars? body with
  | some _ => .ok ()
  | none => .error (.invalidExpression (String.ofList body))

/-- The three checks of a formula's body in their order. -/
def body (text : List Char) : Except SheetError Unit := do
  functionName text
  arguments text
  expression text

/-- Checks a cell's content. A content without `=` passes, and so do a number and a
reference. -/
def content (raw : String) : Except SheetError Unit :=
  match raw.toList with
  | '=' :: text =>
    if (Numeral.ofChars? text).isSome || (Reference.ofChars? text).isSome then .ok ()
    else body text
  | _ => .ok ()

end PlainSheet.Check
