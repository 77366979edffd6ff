import PlainSheet.Number.Decimal
import PlainSheet.Text.Blank

/-!
The number that a shown text counts as. An operand is read back from the text of its
cell: white space is skipped, and the longest decimal number that follows is taken.
A text that starts with no number counts as zero.
-/

namespace PlainSheet

namespace Leading

/-- Reads a point with at least one digit after it, and answers the digits. Without
them nothing is read. -/
def scanFraction (text : List Char) : List Char × List Char :=
  match text with
  | '.' :: rest =>
    if (rest.takeWhile Char.isDigit).isEmpty then ([], text)
    else (rest.takeWhile Char.isDigit, rest.dropWhile Char.isDigit)
  | _ => ([], text)

/-- Reads an exponent: the letter `e` in either case, an optional sign and at least
one digit. Without all of these nothing is read and the exponent is zero. -/
def scanExponent (text : List Char) : Int × List Char :=
  match text with
  | c :: rest =>
    if c = 'e' ∨ c = 'E' then
      let (negative, digits) := Decimal.scanSign rest
      if (digits.takeWhile Char.isDigit).isEmpty then (0, text)
      else
        (Decimal.signedExponent negative (digits.takeWhile Char.isDigit),
          digits.dropWhile Char.isDigit)
    else (0, text)
  | [] => (0, text)

/-- Reads the longest decimal number that a text starts with: an optional sign,
digits with or without a fraction, or a fraction alone, and an optional exponent. -/
def scan? (text : List Char) : Option (Decimal × List Char) :=
  let (negative, afterSign) := Decimal.scanSign text
  let whole := afterSign.takeWhile Char.isDigit
  let (fraction, afterFraction) := scanFraction (afterSign.dropWhile Char.isDigit)
  if whole.isEmpty && fraction.isEmpty then none
  else
    let (exponent, rest) := scanExponent afterFraction
    some (⟨negative, whole, fraction, exponent⟩, rest)

end Leading

/-- The value that a shown text has as an operand. -/
def Binary64.ofShown (text : String) : Binary64 :=
  match Leading.scan? (text.toList.dropWhile Text.isWhiteSpace) with
  | some (d, _) => d.toBinary64
  | none => zero

end PlainSheet
