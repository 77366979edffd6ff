import PlainSheet.Address
import PlainSheet.Formula.Function
import PlainSheet.Number.Numeral

/-!
Calls, the bodies of formulas. A call is a name in capital letters and, in
parentheses, one operand or more separated by commas. Spaces may stand around a
comma and nowhere else; an operand is a numeral or a cell reference.
-/

namespace PlainSheet

/-- What a call is given: a number, or the cell that holds it. -/
inductive Operand where
  | numeral (n : Numeral)
  | cell (r : Reference)
deriving DecidableEq, Repr

namespace Operand

def chars : Operand → List Char
  | numeral n => n.chars
  | cell r => r.chars

/-- Reads the operand that a text starts with, and answers the rest. -/
def scan? (text : List Char) : Option (Operand × List Char) :=
  match Numeral.scan? text with
  | some (n, rest) => some (numeral n, rest)
  | none => (Reference.scan? text).map fun (r, rest) => (cell r, rest)

/-- An operand is read off the front of a text: nothing is skipped and nothing lost. -/
theorem eq_append_of_scan? {text rest : List Char} {operand : Operand}
    (h : scan? text = some (operand, rest)) : text = operand.chars ++ rest := by
  unfold scan? at h
  split at h
  next n middle hNumeral =>
    cases h
    exact Numeral.eq_append_of_scan? hNumeral
  next =>
    obtain ⟨⟨r, middle⟩, hReference, hEq⟩ := Option.map_eq_some_iff.mp h
    cases hEq
    exact Reference.eq_append_of_scan? hReference

end Operand

/-- A well-formed call. Its name need not be that of a function. -/
structure Call where
  name : List Char
  operands : List Operand
deriving DecidableEq, Repr

namespace Call

def isSpace (c : Char) : Bool := c == ' '

/-- Reads a comma with the spaces around it, and answers the rest. -/
def scanSeparator? (text : List Char) : Option (List Char) :=
  match text.dropWhile isSpace with
  | ',' :: rest => some (rest.dropWhile isSpace)
  | _ => none

theorem length_scanSeparator?_lt {text rest : List Char} (h : scanSeparator? text = some rest) :
    rest.length < text.length := by
  unfold scanSeparator? at h
  split at h
  next middle hComma =>
    have hSpaces := (List.dropWhile_sublist isSpace (l := text)).length_le
    have hMore := (List.dropWhile_sublist isSpace (l := middle)).length_le
    rw [hComma] at hSpaces
    simp only [List.length_cons] at hSpaces
    cases h
    omega
  next => cases h

/-- Reads the operands after a separator or after the opening parenthesis, up to where
no separator follows. Those read before are kept in reverse. -/
def scanOperands? (read : List Operand) (text : List Char) :
    Option (List Operand × List Char) :=
  match _ : Operand.scan? text with
  | none => none
  | some (operand, rest) =>
    match _ : scanSeparator? rest with
    | some more => scanOperands? (operand :: read) more
    | none => some ((operand :: read).reverse, rest)
termination_by text.length
decreasing_by
  rename_i hOperand hSeparator
  have hRest := length_scanSeparator?_lt hSeparator
  have hText := Operand.eq_append_of_scan? hOperand
  simp only [hText, List.length_append]
  omega

def ofChars? (text : List Char) : Option Call :=
  let name := text.takeWhile Char.isUpper
  if name.isEmpty then none
  else
    match text.dropWhile Char.isUpper with
    | '(' :: arguments =>
      match scanOperands? [] arguments with
      | some (operands, [')']) => some ⟨name, operands⟩
      | _ => none
    | _ => none

def ofString? (text : String) : Option Call := ofChars? text.toList

end Call

end PlainSheet
