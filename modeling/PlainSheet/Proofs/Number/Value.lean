import Mathlib.Algebra.Order.Field.Basic
import Mathlib.Data.Rat.Cast.Order
import Mathlib.Tactic.FieldSimp
import Mathlib.Tactic.Linarith
import Mathlib.Tactic.NormNum
import Mathlib.Tactic.Positivity
import Mathlib.Tactic.Ring
import PlainSheet.Binary64.Rounding

/-! The exact values of binary64 words. A word of 64 bits is a sign, 11 bits of exponent and 52
bits of fraction, and unless all bits of the exponent are set it has a rational value. -/

namespace PlainSheet.Binary64

-- Powers of natural numbers are those of the core library in every module.
attribute [local instance (high)] instNatPowNat instPowNat

/-- The first bit of a word. -/
def signBit (word : UInt64) : Bool := 2 ^ 63 ≤ word.toNat

/-- The 11 bits behind the sign. -/
def exponentField (word : UInt64) : Nat := word.toNat / 2 ^ 52 % 2 ^ 11

/-- The last 52 bits. -/
def fractionField (word : UInt64) : Nat := word.toNat % 2 ^ 52

/-- The size of a finite word. With the smallest exponent the leading bit is not implied. -/
def wordSize (word : UInt64) : ℚ :=
  if exponentField word = 0 then 2 ^ (-1022 : ℤ) * (fractionField word / 2 ^ 52)
  else 2 ^ ((exponentField word : ℤ) - 1023) * (1 + fractionField word / 2 ^ 52)

/-- A size with a sign before it. -/
def signed (negative : Bool) (size : ℚ) : ℚ := if negative then -size else size

/-- The exact value of a finite word. That of negative zero is zero. -/
def wordValue (word : UInt64) : ℚ := signed (signBit word) (wordSize word)

theorem abs_signed (negative : Bool) {size : ℚ} (h : 0 ≤ size) : |signed negative size| = size := by
  cases negative with
  | false => exact abs_of_nonneg h
  | true => exact (abs_neg size).trans (abs_of_nonneg h)

/-- A number is below zero when it has a minus sign and is not zero. -/
theorem signed_neg_iff {negative : Bool} {size : ℚ} (h : 0 ≤ size) :
    signed negative size < 0 ↔ negative = true ∧ size ≠ 0 := by
  cases negative with
  | false => simpa [signed] using h
  | true => simpa [signed, eq_comm] using lt_iff_le_and_ne.trans (and_iff_right h)

theorem unitsPerOne_pos : 0 < unitsPerOne := Nat.two_pow_pos _

namespace Magnitude

/-- The size of a magnitude, whose units are parts of one. -/
def size (m : Magnitude) : ℚ := m.units / unitsPerOne

variable {m : Magnitude}

theorem size_nonneg (m : Magnitude) : 0 ≤ m.size := by
  unfold size
  positivity

theorem size_eq_iff {whole : Nat} : m.size = whole ↔ m.units = whole * unitsPerOne := by
  have hOne : (unitsPerOne : ℚ) ≠ 0 := by exact_mod_cast unitsPerOne_pos.ne'
  rw [size, div_eq_iff hOne, ← Nat.cast_mul, Nat.cast_inj]

theorem size_eq_zero_iff : m.size = 0 ↔ m.units = 0 := by
  have hZero : m.size = (0 : Nat) ↔ m.units = 0 * unitsPerOne := size_eq_iff
  simpa using hZero

end Magnitude

theorem decide_signed_neg (negative : Bool) (m : Magnitude) :
    decide (signed negative m.size < 0) = (negative && m.units != 0) := by
  rw [Bool.eq_iff_iff, decide_eq_true_iff, signed_neg_iff m.size_nonneg, ne_eq,
    Magnitude.size_eq_zero_iff]
  simp

theorem unitsPerOne_cast : (unitsPerOne : ℚ) = 2 ^ (oneExponent : ℤ) := by
  rw [unitsPerOne, Nat.cast_pow, Nat.cast_ofNat, zpow_natCast]

/-- Without a leading bit, a unit of the fraction is the least power of two. -/
theorem size_of_subnormal (fraction : Nat) :
    (fraction : ℚ) / unitsPerOne = 2 ^ (-1022 : ℤ) * (fraction / 2 ^ 52) := by
  have hPower : (2 : ℚ) ^ (-1022 : ℤ) * 2 ^ (oneExponent : ℤ) = 2 ^ 52 := by
    rw [← zpow_add₀ two_ne_zero]
    norm_num [oneExponent]
  rw [unitsPerOne_cast, div_eq_iff (zpow_ne_zero _ two_ne_zero), mul_right_comm, hPower]
  field_simp

/-- With a leading bit, the exponent counts up from the least power of two. -/
theorem size_of_normal (exponent fraction : Nat) :
    (((fractionCount + fraction) * 2 ^ exponent : Nat) : ℚ) / unitsPerOne =
      2 ^ (((exponent + 1 : Nat) : ℤ) - 1023) * (1 + fraction / 2 ^ 52) := by
  have hPower : (2 : ℚ) ^ (((exponent + 1 : Nat) : ℤ) - 1023) * 2 ^ (oneExponent : ℤ) =
      2 ^ 52 * 2 ^ exponent := by
    rw [← zpow_add₀ two_ne_zero, ← zpow_natCast, ← zpow_natCast, ← zpow_add₀ two_ne_zero]
    congr 1
    simp only [oneExponent]
    omega
  have hCount : (fractionCount : ℚ) = 2 ^ 52 := by norm_num [fractionCount, fractionBits]
  rw [unitsPerOne_cast, div_eq_iff (zpow_ne_zero _ two_ne_zero), mul_right_comm, hPower,
    Nat.cast_mul, Nat.cast_add, Nat.cast_pow, hCount]
  field_simp
  norm_num

theorem signBit_eq (word : UInt64) :
    signBit word = decide (word.toNat / fractionCount / exponentCount = 1) := by
  have hWord : word.toNat < 2 ^ 64 := word.toNat_lt
  have hCounts : fractionCount = 2 ^ 52 ∧ exponentCount = 2 ^ 11 := ⟨rfl, rfl⟩
  rw [signBit, decide_eq_decide, hCounts.1, hCounts.2]
  omega

theorem ofBits_of_nan {word : UInt64} (hExponent : exponentField word = 2047)
    (hFraction : fractionField word ≠ 0) : ofBits word = nan := by
  have hTop : word.toNat / fractionCount % exponentCount = exponentCount - 1 := hExponent
  have hPart : word.toNat % fractionCount ≠ 0 := hFraction
  rw [ofBits, dif_pos hTop, if_neg hPart]

theorem ofBits_of_infinity {word : UInt64} (hExponent : exponentField word = 2047)
    (hFraction : fractionField word = 0) : ofBits word = infinity (signBit word) := by
  have hTop : word.toNat / fractionCount % exponentCount = exponentCount - 1 := hExponent
  have hPart : word.toNat % fractionCount = 0 := hFraction
  rw [ofBits, dif_pos hTop, if_pos hPart, signBit_eq]

/-- A word with any other exponent is finite and of its size. -/
theorem exists_ofBits_eq {word : UInt64} (h : exponentField word ≠ 2047) :
    ∃ m, ofBits word = finite (signBit word) m ∧ m.size = wordSize word := by
  have hTop : word.toNat / fractionCount % exponentCount ≠ exponentCount - 1 := h
  rw [ofBits, dif_neg hTop, ← signBit_eq]
  by_cases hZero : exponentField word = 0
  · have hExponent : word.toNat / fractionCount % exponentCount = 0 := hZero
    rw [if_pos hExponent]
    refine ⟨_, rfl, ?_⟩
    rw [wordSize, if_pos hZero]
    exact size_of_subnormal (fractionField word)
  · have hExponent : word.toNat / fractionCount % exponentCount ≠ 0 := hZero
    rw [if_neg hExponent]
    refine ⟨_, rfl, ?_⟩
    have hNext : exponentField word = exponentField word - 1 + 1 := by omega
    rw [wordSize, if_neg hZero, hNext]
    exact size_of_normal (exponentField word - 1) (fractionField word)

end PlainSheet.Binary64
