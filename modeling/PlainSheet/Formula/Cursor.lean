import PlainSheet.Address

/-!
A cursor that reads the tokens of formulas from the bytes of a text. It goes forward byte by
byte and goes back to where a token began when there is none. What it has passed is cut out of
the text, and a cut that the text cannot be given is a fault of its own.
-/

namespace PlainSheet

/-- A cut from one byte to another that would not give a text: it is out of range or goes
backwards, or one of its ends is inside a character. -/
structure BadSlice where
  start : Nat
  stop : Nat
deriving DecidableEq, Repr

/-- The text between two bytes of a text. -/
def slice (text : String) (start stop : Nat) : Except BadSlice String :=
  if h : start ≤ stop ∧ String.Pos.Raw.IsValid text ⟨start⟩ ∧
      String.Pos.Raw.IsValid text ⟨stop⟩ then
    .ok (text.extract (text.pos ⟨start⟩ h.2.1) (text.pos ⟨stop⟩ h.2.2))
  else .error ⟨start, stop⟩

/-- A text and how many of its bytes were passed. -/
structure Cursor where
  text : String
  position : Nat
deriving DecidableEq, Repr

namespace Cursor

/-- The bytes that were not passed. -/
def bytes (cursor : Cursor) : List UInt8 := cursor.text.toUTF8.data.toList.drop cursor.position

def peek? (cursor : Cursor) : Option UInt8 := cursor.bytes.head?

def advance (cursor : Cursor) (count : Nat) : Cursor :=
  { cursor with position := cursor.position + count }

/-- Passes one byte if it is the next. -/
def eat (cursor : Cursor) (byte : UInt8) : Bool × Cursor :=
  if cursor.peek? = some byte then (true, cursor.advance 1) else (false, cursor)

/-- What was passed since a position. -/
def sliceFrom (cursor : Cursor) (start : Nat) : Except BadSlice String :=
  slice cursor.text start cursor.position

/-- Passes bytes as long as they meet a test. -/
def eatWhile (cursor : Cursor) (test : UInt8 → Bool) : Except BadSlice (String × Cursor) := do
  let after := cursor.advance (cursor.bytes.takeWhile test).length
  return (← after.sliceFrom cursor.position, after)

/-- Whether a byte is one of the characters from one to another. -/
def inRange (first last : Char) (byte : UInt8) : Bool :=
  first.toUInt8 ≤ byte && byte ≤ last.toUInt8

def isDigit : UInt8 → Bool := inRange '0' '9'

def isNonzeroDigit : UInt8 → Bool := inRange '1' '9'

def isUpper : UInt8 → Bool := inRange 'A' 'Z'

def isSpace (byte : UInt8) : Bool := byte == ' '.toUInt8

/-- Passes a point and the digits behind it, if the point is there. -/
def fraction (cursor : Cursor) : Except BadSlice (Bool × Cursor) :=
  match cursor.eat '.'.toUInt8 with
  | (true, after) => do return (true, (← after.eatWhile isDigit).2)
  | (false, after) => return (false, after)

/-- Passes the part of a number behind its sign, and answers whether there is one. Nothing is
taken back if there is not. -/
def unsigned (cursor : Cursor) (negative : Bool) : Except BadSlice (Bool × Cursor) :=
  match cursor.peek? with
  | none => return (false, cursor)
  | some byte =>
    if byte = '0'.toUInt8 then do
      let (point, after) ← (cursor.advance 1).fraction
      -- A minus sign and a zero without a point are no number.
      return (point || !negative, after)
    else if isNonzeroDigit byte then do
      let (_, after) ← cursor.eatWhile isDigit
      return (true, (← after.fraction).2)
    else return (false, cursor)

def number (cursor : Cursor) : Except BadSlice (Option String × Cursor) := do
  let (negative, afterSign) := cursor.eat '-'.toUInt8
  let (isNumber, after) ← afterSign.unsigned negative
  if isNumber then return (some (← after.sliceFrom cursor.position), after)
  else return (none, { after with position := cursor.position })

/-- Passes a cell, and answers its address and what was passed. -/
def cell (cursor : Cursor) : Except BadSlice (Option (Address × String) × Cursor) := do
  let (letters, afterLetters) ← cursor.eatWhile isUpper
  if letters.isEmpty || !afterLetters.peek?.any isNonzeroDigit then
    return (none, { afterLetters with position := cursor.position })
  else
    let (digits, after) ← afterLetters.eatWhile isDigit
    let address := Reference.address ⟨letters.toList, digits.toList⟩
    return (some (address, ← after.sliceFrom cursor.position), after)

/-- Passes a comma with the spaces around it, and answers whether it was there. -/
def separator (cursor : Cursor) : Except BadSlice (Bool × Cursor) := do
  let (_, afterSpaces) ← cursor.eatWhile isSpace
  match afterSpaces.eat ','.toUInt8 with
  | (true, afterComma) => return (true, (← afterComma.eatWhile isSpace).2)
  | (false, after) => return (false, { after with position := cursor.position })

end Cursor

end PlainSheet
