import PlainSheet.Binary64.Rounding
import PlainSheet.Number.Digits

/-!
Decimal numbers as they are written: a sign, digits before and after the point, and
a power of ten. The value of one is exact; reading it as a binary64 value rounds
that exact value once. Exponents from 655360 on lose their last digits.
-/

namespace PlainSheet

-- Powers of natural numbers are those of the core library in every module.
attribute [local instance (high)] instNatPowNat instPowNat

/-- A decimal number by its parts. The point stands between `whole` and `fraction`,
and all digits are `0` to `9`. -/
structure Decimal where
  negative : Bool
  whole : List Char
  fraction : List Char
  exponent : Int
deriving DecidableEq, Repr

namespace Decimal

/-- The digits read as one whole number, without the point. -/
def coefficient (d : Decimal) : Nat :=
  Digits.decimal (d.whole ++ d.fraction)

/-- The power of ten that the coefficient stands at. -/
def scale (d : Decimal) : Int :=
  d.exponent - d.fraction.length

/-- Reads an optional sign; the answer says whether it is a minus sign. -/
def scanSign : List Char → Bool × List Char
  | '-' :: rest => (true, rest)
  | '+' :: rest => (false, rest)
  | rest => (false, rest)

/-- An exponent of this size takes in no more digits. -/
def exponentLimit : Nat := 65536

/-- Takes in one more digit of an exponent, unless the limit has been reached. -/
def extendExponent (size : Nat) (digit : Char) : Nat :=
  if size < exponentLimit then size * 10 + (digit.toNat - '0'.toNat) else size

/-- The size of an exponent by its digits. Digits behind those that reach the limit are
passed over, so an exponent of 655360 or more counts as a leading part of its digits. -/
def exponentSize (digits : List Char) : Nat := digits.foldl extendExponent 0

/-- The exponent of a sign and digits. -/
def signedExponent (negative : Bool) (digits : List Char) : Int :=
  if negative then -Int.ofNat (exponentSize digits) else Int.ofNat (exponentSize digits)

theorem foldl_extendExponent_eq {digits : List Char} {size : Nat}
    (h : Nat.ofDigitChars 10 digits size < 10 * exponentLimit) :
    digits.foldl extendExponent size = Nat.ofDigitChars 10 digits size := by
  induction digits generalizing size with
  | nil => rfl
  | cons digit digits ih =>
    rw [Nat.ofDigitChars_cons] at h ⊢
    have hSize : size < exponentLimit := by
      have hGrows := Digits.le_ofDigitChars digits (10 * size + (digit.toNat - '0'.toNat))
      omega
    rw [List.foldl_cons, extendExponent, if_pos hSize, Nat.mul_comm]
    exact ih h

/-- Exponents below 655360 are read exactly. -/
theorem exponentSize_eq {digits : List Char}
    (h : Nat.ofDigitChars 10 digits 0 < 10 * exponentLimit) :
    exponentSize digits = Nat.ofDigitChars 10 digits 0 :=
  foldl_extendExponent_eq h

end Decimal

/-- The binary64 value nearest to `coefficient · 10 ^ power`. Powers that decide the
result by themselves are not multiplied out: since 10 lies above 2³, a power can be
so high that the value is at least 2¹⁰²⁴, or so low that it is at most 2⁻¹⁰⁷⁶ and
nearer to zero than to any other value. -/
def Binary64.ofScientific (negative : Bool) (coefficient : Nat) (power : Int) : Binary64 :=
  if coefficient = 0 then finite negative Magnitude.zero
  else
    match power with
    | .ofNat raised =>
      if 1024 ≤ coefficient.log2 + 3 * raised then infinity negative
      else ofQuotient negative (coefficient * 10 ^ raised * unitsPerOne) 1
    | .negSucc lowered =>
      if coefficient.log2 + 1077 ≤ 3 * (lowered + 1) then finite negative Magnitude.zero
      else ofQuotient negative (coefficient * unitsPerOne) (10 ^ (lowered + 1))

def Decimal.toBinary64 (d : Decimal) : Binary64 :=
  Binary64.ofScientific d.negative d.coefficient d.scale

end PlainSheet
