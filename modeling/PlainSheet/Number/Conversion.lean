import PlainSheet.Number.Numeral

/-!
The conversion of whole texts to values. It takes more texts than the numbers of formulas and
those that operands are read from: a sign of either kind, a point with digits on one of its sides
only, an exponent, and the names of the values that are not finite.
-/

namespace PlainSheet

namespace Decimal

/-- The exponent that the end of a number writes. Without one it is zero. -/
def exponentOfChars? : List Char → Option Int
  | [] => some 0
  | c :: rest =>
    if c = 'e' ∨ c = 'E' then
      let (negative, digits) := scanSign rest
      if !digits.isEmpty && digits.all Char.isDigit then some (signedExponent negative digits)
      else none
    else none

/-- The decimal number that a whole text writes. It has a digit before or behind its point. -/
def ofChars? (text : List Char) : Option Decimal :=
  let (negative, afterSign) := scanSign text
  let whole := afterSign.takeWhile Char.isDigit
  let (decimals, afterDecimals) := Numeral.scanFraction (afterSign.dropWhile Char.isDigit)
  let fraction := decimals.getD []
  if whole.isEmpty && fraction.isEmpty then none
  else (exponentOfChars? afterDecimals).map fun exponent => ⟨negative, whole, fraction, exponent⟩

end Decimal

/-- The value that a whole text converts to, if it writes one. Names of values are taken in either
case. -/
def Binary64.ofChars? (text : List Char) : Option Binary64 :=
  match Decimal.ofChars? text with
  | some d => some d.toBinary64
  | none =>
    let (negative, name) := Decimal.scanSign text
    if name.map Char.toLower = "nan".toList then some nan
    else if name.map Char.toLower = "inf".toList ∨ name.map Char.toLower = "infinity".toList then
      some (infinity negative)
    else none

end PlainSheet
