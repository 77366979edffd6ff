import PlainSheet.Formula.Call

/-!
What a cell holds. A content that starts with `=` is a number, a reference or a
formula when its body is one; every other content is text, a malformed formula
included.
-/

namespace PlainSheet

/-- A call of a function with operands that it takes. -/
structure Formula where
  function : Function
  operands : List Operand
deriving DecidableEq, Repr

namespace Formula

/-- The formula of a call, if its name is that of a function and the function takes
that many operands. -/
def ofCall? (call : Call) : Option Formula :=
  match Function.ofName? (String.ofList call.name) with
  | some f => if f.arity.accepts call.operands.length then some ⟨f, call.operands⟩ else none
  | none => none

/-- The formula of a body, which is what follows the `=` of a content. -/
def ofBody? (body : List Char) : Option Formula :=
  match Call.ofChars? body with
  | some call => ofCall? call
  | none => none

/-- The formula of a whole content, its `=` included. -/
def ofString? (raw : String) : Option Formula :=
  match raw.toList with
  | '=' :: body => ofBody? body
  | _ => none

end Formula

inductive Content where
  | number (n : Numeral)
  | reference (r : Reference)
  | formula (f : Formula)
  | text (raw : String)
deriving DecidableEq, Repr

namespace Content

def ofString (raw : String) : Content :=
  match raw.toList with
  | '=' :: body =>
    match Numeral.ofChars? body with
    | some n => number n
    | none =>
      match Reference.ofChars? body with
      | some r => reference r
      | none =>
        match Formula.ofBody? body with
        | some f => formula f
        | none => text raw
  | _ => text raw

end Content

end PlainSheet
