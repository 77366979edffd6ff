import PlainSheet.Binary64.Basic

/-!
Rounding of exact quotients. Every operation computes its result as a quotient of
natural numbers and rounds it once, to the nearest representable value; a result
half-way between two of them goes to the one with the even significand.
-/

namespace PlainSheet.Binary64

-- Powers of natural numbers are those of the core library in every module.
attribute [local instance (high)] instNatPowNat instPowNat

/-- The whole number nearest to a quotient. An exact half goes to the even one. -/
def roundedQuotient (numerator denominator : Nat) : Nat :=
  let quotient := numerator / denominator
  let twice := 2 * (numerator % denominator)
  if twice < denominator then quotient
  else if denominator < twice then quotient + 1
  else quotient + quotient % 2

theorem roundedQuotient_le (numerator denominator : Nat) :
    roundedQuotient numerator denominator ≤ numerator / denominator + 1 := by
  unfold roundedQuotient
  dsimp only
  split
  · omega
  · split <;> omega

/-- How far a quotient of units has to be scaled down to leave a significand of 53
bits: its binary exponent less 52, and not at all when it is below 2⁵³. -/
def scaleOf (numerator denominator : Nat) : Nat :=
  (numerator / denominator).log2 - fractionBits

theorem quotient_lt_significandLimit (numerator denominator : Nat) :
    numerator / (denominator * 2 ^ scaleOf numerator denominator) < significandLimit := by
  have hLog : numerator / denominator < 2 ^ ((numerator / denominator).log2 + 1) :=
    Nat.lt_log2_self
  have hScale : (numerator / denominator).log2 + 1 ≤ 53 + scaleOf numerator denominator := by
    unfold scaleOf fractionBits
    omega
  rw [← Nat.div_div_eq_div_mul, Nat.div_lt_iff_lt_mul (Nat.two_pow_pos _)]
  calc numerator / denominator
      < 2 ^ ((numerator / denominator).log2 + 1) := hLog
    _ ≤ 2 ^ (53 + scaleOf numerator denominator) := Nat.pow_le_pow_right (by decide) hScale
    _ = significandLimit * 2 ^ scaleOf numerator denominator := Nat.pow_add _ _ _

/-- The representable magnitude nearest to a quotient of units, or nothing when the
rounded result reaches 2¹⁰²⁴. -/
def nearestMagnitude (numerator denominator : Nat) : Option Magnitude :=
  let exponent := scaleOf numerator denominator
  let significand := roundedQuotient numerator (denominator * 2 ^ exponent)
  if hLimit : significand * 2 ^ exponent < unitsLimit then
    some ⟨significand * 2 ^ exponent, representable_of_le
      (Nat.le_trans (roundedQuotient_le _ _)
        (quotient_lt_significandLimit numerator denominator)) hLimit⟩
  else
    none

/-- The value nearest to a quotient of units. What is too large becomes an infinity,
and what is too small becomes a zero of the same sign. -/
def ofQuotient (negative : Bool) (numerator denominator : Nat) : Binary64 :=
  match nearestMagnitude numerator denominator with
  | some m => finite negative m
  | none => infinity negative

/-- The value nearest to a whole number of units. -/
def ofUnits (negative : Bool) (units : Nat) : Binary64 :=
  ofQuotient negative units 1

end PlainSheet.Binary64
