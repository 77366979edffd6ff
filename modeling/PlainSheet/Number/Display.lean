import PlainSheet.Binary64.Rounding

/-!
The text that a computed value is shown as. A whole number is written out in full
without a point; any other finite value is rounded to hundredths, of which an exact
half goes to the even one, and shows both decimals.
-/

namespace PlainSheet.Binary64

/-- A minus sign when it is wanted. -/
def signText (negative : Bool) : String :=
  if negative then "-" else ""

/-- A number of hundredths with its point. Both decimals are always written. -/
def hundredthsText (hundredths : Nat) : String :=
  let decimals := hundredths % 100
  toString (hundredths / 100) ++ "." ++ toString (decimals / 10) ++ toString (decimals % 10)

/-- The text of a value. Zero has no sign when it is exact, and keeps the sign of the
value when rounding to hundredths made it zero. -/
def display : Binary64 → String
  | nan => "NaN"
  | infinity negative => signText negative ++ "Inf"
  | finite negative m =>
    if m.units % unitsPerOne = 0 then
      signText (negative && m.units != 0) ++ toString (m.units / unitsPerOne)
    else
      signText negative ++ hundredthsText (roundedQuotient (m.units * 100) unitsPerOne)

end PlainSheet.Binary64
