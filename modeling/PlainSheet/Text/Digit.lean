/-!
Digits beyond what the core library tells of them: those that a number without a
leading zero starts with, and those of bases up to sixteen.
-/

namespace PlainSheet.Text

/-- The digits `1` to `9`. -/
def isNonzeroDigit (c : Char) : Bool := c.isDigit && c != '0'

theorem isDigit_of_isNonzeroDigit {c : Char} (h : isNonzeroDigit c = true) :
    c.isDigit = true := by
  simp only [isNonzeroDigit, Bool.and_eq_true] at h
  exact h.1

/-- The value of a hexadecimal digit of either case. -/
def hexValue? (c : Char) : Option Nat :=
  if c.isDigit then some (c.toNat - '0'.toNat)
  else if 'a' ≤ c ∧ c ≤ 'f' then some (c.toNat - 'a'.toNat + 10)
  else if 'A' ≤ c ∧ c ≤ 'F' then some (c.toNat - 'A'.toNat + 10)
  else none

end PlainSheet.Text
