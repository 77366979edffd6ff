/-!
The numbers of a sheet are IEEE 754 binary64 values. A finite value is a sign and a
whole number of units, where one unit is 2⁻¹⁰⁷⁴, the smallest positive value of the
format. Counting in units makes sums, remainders and comparisons of finite values
exact arithmetic on natural numbers; only the last step of an operation rounds.
-/

namespace PlainSheet

-- Powers of natural numbers are those of the core library in every module.
attribute [local instance (high)] instNatPowNat instPowNat

/-- One is 2¹⁰⁷⁴ units. -/
def Binary64.oneExponent : Nat := 1074

/-- The first power of two above every finite value is 2¹⁰²⁴, or 2²⁰⁹⁸ units. -/
def Binary64.limitExponent : Nat := 2098

def Binary64.unitsPerOne : Nat := 2 ^ oneExponent

/-- The least number of units that is too large for a finite value. -/
def Binary64.unitsLimit : Nat := 2 ^ limitExponent

/-- A word ends in 52 bits of fraction. -/
def Binary64.fractionBits : Nat := 52

/-- A word has 11 bits of exponent before the fraction. -/
def Binary64.exponentBits : Nat := 11

/-- The least whole number of more than 53 bits. A significand has one bit more than a
fraction. -/
def Binary64.significandLimit : Nat := 2 ^ (fractionBits + 1)

/-- A number of units that the format holds exactly: at most 53 significant bits,
and below 2¹⁰²⁴. -/
def Binary64.Representable (units : Nat) : Prop :=
  units < unitsLimit ∧
    ∃ significand exponent : Nat,
      significand < significandLimit ∧ units = significand * 2 ^ exponent

structure Binary64.Magnitude where
  /-- The size in units of 2⁻¹⁰⁷⁴. -/
  units : Nat
  /-- The format holds it exactly. -/
  representable : Binary64.Representable units
deriving DecidableEq

/-- A binary64 value. Zero keeps its sign, and all NaNs are one value: neither the
sign nor the payload of a NaN can be seen in a sheet. -/
inductive Binary64 where
  | nan
  | infinity (negative : Bool)
  | finite (negative : Bool) (magnitude : Binary64.Magnitude)
deriving DecidableEq

namespace Binary64

theorem Magnitude.ext_units {m n : Magnitude} (h : m.units = n.units) : m = n := by
  cases m
  cases n
  cases h
  rfl

theorem Magnitude.units_lt (m : Magnitude) : m.units < unitsLimit :=
  m.representable.1

theorem two_pow_le_unitsLimit {exponent : Nat} (h : exponent ≤ limitExponent) :
    2 ^ exponent ≤ unitsLimit :=
  Nat.pow_le_pow_right (by decide) h

/-- A significand of at most 53 bits, scaled by at most 2²⁰⁴⁵, is representable. -/
theorem representable_of_lt {significand exponent : Nat}
    (hSignificand : significand < significandLimit) (hExponent : exponent ≤ 2045) :
    Representable (significand * 2 ^ exponent) := by
  refine ⟨?_, significand, exponent, hSignificand, rfl⟩
  calc significand * 2 ^ exponent
      < significandLimit * 2 ^ exponent :=
        Nat.mul_lt_mul_of_pos_right hSignificand (Nat.two_pow_pos _)
    _ = 2 ^ (53 + exponent) := (Nat.pow_add 2 53 exponent).symm
    _ ≤ unitsLimit := two_pow_le_unitsLimit (by unfold limitExponent; omega)

theorem representable_of_small {units : Nat} (h : units < significandLimit) :
    Representable units := by
  simpa using representable_of_lt h (Nat.zero_le 2045)

/-- A significand that rounding carried up to 2⁵³ is still representable, since it
is then a power of two. -/
theorem representable_of_le {significand exponent : Nat}
    (hSignificand : significand ≤ significandLimit)
    (hLimit : significand * 2 ^ exponent < unitsLimit) :
    Representable (significand * 2 ^ exponent) := by
  refine ⟨hLimit, ?_⟩
  rcases Nat.lt_or_eq_of_le hSignificand with hLt | hEq
  · exact ⟨significand, exponent, hLt, rfl⟩
  · refine ⟨1, 53 + exponent, by decide, ?_⟩
    rw [hEq, Nat.pow_add, Nat.one_mul]
    rfl

def Magnitude.zero : Magnitude := ⟨0, representable_of_small (by decide)⟩

def zero : Binary64 := finite false Magnitude.zero

def fractionCount : Nat := 2 ^ fractionBits

def exponentCount : Nat := 2 ^ exponentBits

/-- The value of a 64-bit word, which is a sign bit, an exponent and a fraction. The
largest exponent is for infinities and NaNs; the smallest is for values below 2⁻¹⁰²²,
whose leading bit is not implied. -/
def ofBits (word : UInt64) : Binary64 :=
  let negative := word.toNat / fractionCount / exponentCount = 1
  let exponent := word.toNat / fractionCount % exponentCount
  let fraction := word.toNat % fractionCount
  have hFraction : fraction < fractionCount := Nat.mod_lt _ (by decide)
  have hExponent : exponent < exponentCount := Nat.mod_lt _ (by decide)
  have hSignificand : fractionCount + fraction < significandLimit := by
    have hTwice : significandLimit = 2 * fractionCount := Nat.pow_succ'
    omega
  if hTop : exponent = exponentCount - 1 then
    if fraction = 0 then infinity negative else nan
  else if exponent = 0 then
    finite negative ⟨fraction, representable_of_small (by omega)⟩
  else
    finite negative ⟨(fractionCount + fraction) * 2 ^ (exponent - 1),
      representable_of_lt hSignificand (by
        have hCount : exponentCount = 2048 := by decide
        omega)⟩

/-- The exponent and fraction of a magnitude, as one number. A magnitude of 53
significant bits carries its leading bit into the exponent. -/
def Magnitude.bits (m : Magnitude) : Nat :=
  let exponent := m.units.log2 - fractionBits
  exponent * fractionCount + m.units / 2 ^ exponent

/-- The 64-bit word of a value; NaN is the quiet NaN without payload. -/
def toBits : Binary64 → UInt64
  | nan => 0x7ff8000000000000
  | infinity negative => if negative then 0xfff0000000000000 else 0x7ff0000000000000
  | finite negative m => (if negative then 0x8000000000000000 else 0) + UInt64.ofNat m.bits

def neg : Binary64 → Binary64
  | nan => nan
  | infinity negative => infinity !negative
  | finite negative m => finite (!negative) m

/-- Whether a value equals zero, of either sign. -/
def isZero : Binary64 → Bool
  | finite _ m => m.units == 0
  | _ => false

/-- Whether a value is below zero. Negative zero is not, and NaN is not. -/
def isNegative : Binary64 → Bool
  | nan => false
  | infinity negative => negative
  | finite negative m => negative && m.units != 0

end Binary64

end PlainSheet
