import PlainSheet.Text.Digit

/-!
Cell addresses. A column is written in letters, counted A to Z, AA to AZ, BA and so
on, and a row in decimal digits, both from one. Positions beyond the largest index
are all taken to be that index, at which no table has a cell.
-/

namespace PlainSheet

/-- A cell position, counted from one. -/
structure Address where
  row : Nat
  column : Nat
deriving DecidableEq, Repr, Hashable

namespace Address

/-- The largest row and column index: 2⁶⁴ − 1. -/
def maxIndex : Nat := UInt64.size - 1

/-- An index that is too large becomes the largest one. -/
def saturate (index : Nat) : Nat := min index maxIndex

/-- The column that a text names when each of its bytes counts as one letter, `A` for
one, of a number in base 26. Bytes below `A` count as `A` does; bytes above `Z` go on
counting. A text of letters `A` to `Z` names its column. -/
def columnOfLetters (letters : List Char) : Nat :=
  (letters.flatMap String.utf8EncodeChar).foldl
    (fun column byte => saturate (column * 26 + (byte.toNat - 'A'.toNat + 1))) 0

def rowOfDigits (digits : List Char) : Nat :=
  digits.foldl (fun row c => saturate (row * 10 + (c.toNat - '0'.toNat))) 0

/-- The letter at a place of the alphabet, `A` at zero. -/
def letter (place : Nat) : Char := Char.ofNat ('A'.toNat + place)

/-- Writes a column before letters that were already written. -/
def lettersBefore (written : List Char) : Nat → List Char
  | 0 => written
  | column + 1 => lettersBefore (letter (column % 26) :: written) (column / 26)

/-- The letters of a column; column zero has none. -/
def lettersOfColumn (column : Nat) : List Char := lettersBefore [] column

/-- The text of an address: the letters of its column, then its row. -/
def display (address : Address) : String :=
  String.ofList (lettersOfColumn address.column) ++ toString address.row

end Address

/-- A cell reference by its parts as they are written: the letters of the column and
the digits of the row. -/
structure Reference where
  letters : List Char
  digits : List Char
deriving DecidableEq, Repr

namespace Reference

def chars (r : Reference) : List Char := r.letters ++ r.digits

/-- The text of a reference, by which errors name it. -/
def text (r : Reference) : String := String.ofList r.chars

def address (r : Reference) : Address :=
  { row := Address.rowOfDigits r.digits, column := Address.columnOfLetters r.letters }

/-- Reads the longest reference that a text starts with, and answers the rest. A
reference is one letter `A` to `Z` or more, then digits that do not start with zero. -/
def scan? (text : List Char) : Option (Reference × List Char) :=
  let letters := text.takeWhile Char.isUpper
  let afterLetters := text.dropWhile Char.isUpper
  match letters, afterLetters with
  | [], _ => none
  | _, [] => none
  | _, c :: _ =>
    if Text.isNonzeroDigit c then
      some (⟨letters, afterLetters.takeWhile Char.isDigit⟩, afterLetters.dropWhile Char.isDigit)
    else none

/-- A reference is read off the front of a text: nothing is skipped and nothing lost. -/
theorem eq_append_of_scan? {text rest : List Char} {r : Reference}
    (h : scan? text = some (r, rest)) : text = r.chars ++ rest := by
  unfold scan? at h
  dsimp only at h
  split at h
  · cases h
  · cases h
  · split at h
    · cases h
      simp [chars, List.takeWhile_append_dropWhile]
    · cases h

def ofChars? (text : List Char) : Option Reference :=
  match scan? text with
  | some (r, []) => some r
  | _ => none

def ofString? (text : String) : Option Reference := ofChars? text.toList

end Reference

end PlainSheet
