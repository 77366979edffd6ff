import PlainSheet.Number.Decimal
import PlainSheet.Text.Digit

/-!
The numbers that formulas are written with. A numeral is `0`, or an optional minus
sign and digits without a leading zero, with an optional point and any number of
digits after it, even none. A minus sign before a zero needs the point: `-0.` is a
numeral and `-0` is not.
-/

namespace PlainSheet

/-- A numeral by its parts. `fraction` is absent when there is no point. -/
structure Numeral where
  negative : Bool
  whole : List Char
  fraction : Option (List Char)
deriving DecidableEq, Repr

namespace Numeral

def signChars (negative : Bool) : List Char := if negative then ['-'] else []

/-- The characters of a fraction, its point included. -/
def fractionChars : Option (List Char) → List Char
  | some digits => '.' :: digits
  | none => []

def chars (n : Numeral) : List Char :=
  signChars n.negative ++ (n.whole ++ fractionChars n.fraction)

/-- The decimal number that a numeral stands for. -/
def toDecimal (n : Numeral) : Decimal :=
  { negative := n.negative, whole := n.whole, fraction := n.fraction.getD [], exponent := 0 }

def value (n : Numeral) : Binary64 := n.toDecimal.toBinary64

/-- Reads the fraction of a numeral, from its point on, and answers the rest. -/
def scanFraction : List Char → Option (List Char) × List Char
  | '.' :: rest => (some (rest.takeWhile Char.isDigit), rest.dropWhile Char.isDigit)
  | rest => (none, rest)

/-- Reads the part of a numeral after its sign. -/
def scanUnsigned? (negative : Bool) : List Char → Option (Numeral × List Char)
  | [] => none
  | c :: more =>
    if c = '0' then
      match scanFraction more with
      | (none, rest) => if negative then none else some (⟨negative, [c], none⟩, rest)
      | (some digits, rest) => some (⟨negative, [c], some digits⟩, rest)
    else if Text.isNonzeroDigit c then
      match scanFraction (more.dropWhile Char.isDigit) with
      | (fraction, rest) => some (⟨negative, c :: more.takeWhile Char.isDigit, fraction⟩, rest)
    else none

/-- Reads the longest numeral that a text starts with, and answers the rest. -/
def scan? : List Char → Option (Numeral × List Char)
  | '-' :: rest => scanUnsigned? true rest
  | text => scanUnsigned? false text

/-- What is read as a fraction and the rest make up the text. -/
theorem fractionChars_append_scanFraction {text rest : List Char}
    {fraction : Option (List Char)} (h : scanFraction text = (fraction, rest)) :
    fractionChars fraction ++ rest = text := by
  unfold scanFraction at h
  split at h
  · cases h
    simp [fractionChars]
  · cases h
    rfl

/-- What is read after a sign and the rest make up the text. -/
theorem eq_append_of_scanUnsigned? {negative : Bool} {text rest : List Char} {n : Numeral}
    (h : scanUnsigned? negative text = some (n, rest)) :
    signChars negative ++ text = n.chars ++ rest := by
  unfold scanUnsigned? at h
  split at h
  next => cases h
  next c more =>
    split at h
    · split at h
      next middle hFraction =>
        split at h
        · cases h
        · cases h
          simp [chars, fractionChars_append_scanFraction hFraction]
      next digits middle hFraction =>
        cases h
        simp [chars, fractionChars_append_scanFraction hFraction]
    · split at h
      · split at h
        next fraction middle hFraction =>
          cases h
          simp [chars, fractionChars_append_scanFraction hFraction]
      · cases h

/-- A numeral is read off the front of a text: nothing is skipped and nothing lost. -/
theorem eq_append_of_scan? {text rest : List Char} {n : Numeral}
    (h : scan? text = some (n, rest)) : text = n.chars ++ rest := by
  unfold scan? at h
  split at h
  · simpa [signChars] using eq_append_of_scanUnsigned? h
  · simpa [signChars] using eq_append_of_scanUnsigned? h

def ofChars? (text : List Char) : Option Numeral :=
  match scan? text with
  | some (n, []) => some n
  | _ => none

def ofString? (text : String) : Option Numeral := ofChars? text.toList

end Numeral

end PlainSheet
