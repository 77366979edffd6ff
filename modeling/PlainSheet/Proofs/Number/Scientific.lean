import PlainSheet.Number.Decimal
import PlainSheet.Proofs.Number.Rounding

/-! Decimal numbers are read with correct rounding. Powers of ten that decide the result without
being multiplied out decide it as the exact value would. -/

namespace PlainSheet.Binary64

-- Powers of natural numbers are those of the core library in every module.
attribute [local instance (high)] instNatPowNat instPowNat

theorem two_pow_le_ten_pow (count : Nat) : 2 ^ (3 * count) ≤ 10 ^ count := by
  rw [Nat.pow_mul]
  exact Nat.pow_le_pow_left (by decide) count

/-- A power of ten that lies too high by its number of bits. -/
theorem two_pow_le_mul_ten_pow {coefficient raised exponent : Nat} (hCoefficient : coefficient ≠ 0)
    (h : exponent ≤ coefficient.log2 + 3 * raised) :
    (2 : ℚ) ^ exponent ≤ coefficient * 10 ^ raised := by
  have hNat : 2 ^ exponent ≤ coefficient * 10 ^ raised := by
    calc 2 ^ exponent ≤ 2 ^ (coefficient.log2 + 3 * raised) := Nat.pow_le_pow_right (by decide) h
      _ = 2 ^ coefficient.log2 * 2 ^ (3 * raised) := Nat.pow_add _ _ _
      _ ≤ coefficient * 10 ^ raised :=
        Nat.mul_le_mul (Nat.log2_self_le hCoefficient) (two_pow_le_ten_pow raised)
  exact_mod_cast hNat

/-- A power of ten that lies too low by its number of bits. -/
theorem mul_two_pow_lt_ten_pow {coefficient lowered exponent : Nat}
    (h : coefficient.log2 + 1 + exponent ≤ 3 * lowered) :
    (coefficient : ℚ) * 2 ^ exponent < 10 ^ lowered := by
  have hNat : coefficient * 2 ^ exponent < 10 ^ lowered := by
    calc coefficient * 2 ^ exponent < 2 ^ (coefficient.log2 + 1) * 2 ^ exponent :=
          Nat.mul_lt_mul_of_pos_right Nat.lt_log2_self (Nat.two_pow_pos _)
      _ = 2 ^ (coefficient.log2 + 1 + exponent) := (Nat.pow_add _ _ _).symm
      _ ≤ 2 ^ (3 * lowered) := Nat.pow_le_pow_right (by decide) h
      _ ≤ 10 ^ lowered := two_pow_le_ten_pow lowered
  exact_mod_cast hNat

theorem Magnitude.size_zero : Magnitude.zero.size = 0 :=
  Magnitude.size_eq_zero_iff.mpr rfl

/-- Zero is the nearest magnitude below half a unit. -/
theorem Magnitude.isRounding_zero {q : ℚ} (hNonneg : 0 ≤ q) (hSmall : 2 * q * unitsPerOne < 1) :
    Magnitude.zero.IsRounding q := by
  have hOne : (0 : ℚ) < unitsPerOne := by exact_mod_cast unitsPerOne_pos
  have hNearer : ∀ other : Magnitude, other ≠ Magnitude.zero →
      |q - Magnitude.zero.size| < |q - other.size| := by
    intro other hOther
    have hUnits : 1 ≤ other.units := by
      apply Nat.one_le_iff_ne_zero.mpr
      exact fun hZero => hOther (Magnitude.ext_units hZero)
    have hSize : 2 * q < other.size := by
      rw [size, lt_div_iff₀ hOne]
      exact hSmall.trans_le (by exact_mod_cast hUnits)
    rw [size_zero, sub_zero, abs_of_nonneg hNonneg, abs_sub_comm, abs_of_pos (by linarith)]
    linarith
  refine ⟨fun other => ?_, fun other hOther hSame => absurd hSame (hNearer other hOther).ne⟩
  rcases eq_or_ne other Magnitude.zero with rfl | hOther
  · exact le_rfl
  · exact (hNearer other hOther).le

theorem isRounded_zero {q : ℚ} (negative : Bool) (hNonneg : 0 ≤ q)
    (hSmall : 2 * q * unitsPerOne < 1) :
    IsRounded negative q (finite negative Magnitude.zero) := by
  refine .finite ?_ (Magnitude.isRounding_zero hNonneg hSmall)
  have hOne : (0 : ℚ) < unitsPerOne := by exact_mod_cast unitsPerOne_pos
  have hLeast : q < (⟨1, representable_of_small (by decide)⟩ : Magnitude).size := by
    rw [Magnitude.size, Nat.cast_one, lt_div_iff₀ hOne]
    nlinarith
  exact hLeast.trans (Magnitude.size_lt_overflowSize _)

/-- A number of bits that decides for an infinity. -/
theorem isRounded_infinity_of_le (negative : Bool) {coefficient raised : Nat}
    (hCoefficient : coefficient ≠ 0) (h : 1024 ≤ coefficient.log2 + 3 * raised) :
    IsRounded negative (coefficient * 10 ^ raised) (infinity negative) := by
  have hAbove := two_pow_le_mul_ten_pow hCoefficient h
  exact .infinity ((sub_le_self _ (by positivity)).trans hAbove)

/-- Less than half a unit decides for zero. -/
theorem isRounded_zero_of_lt (negative : Bool) {coefficient lowered : Nat}
    (h : (coefficient : ℚ) * 2 ^ (oneExponent + 1) < 10 ^ lowered) :
    IsRounded negative (coefficient / 10 ^ lowered) (finite negative Magnitude.zero) := by
  have hPower : (0 : ℚ) < 10 ^ lowered := by positivity
  apply isRounded_zero negative (by positivity)
  rw [mul_div_assoc', div_mul_eq_mul_div, div_lt_one hPower]
  calc 2 * (coefficient : ℚ) * unitsPerOne = coefficient * 2 ^ (oneExponent + 1) := by
        rw [unitsPerOne, Nat.cast_pow, Nat.cast_ofNat, pow_succ]
        ring
    _ < 10 ^ lowered := h

theorem isRounded_raised (negative : Bool) (coefficient raised : Nat) :
    IsRounded negative (coefficient * 10 ^ raised)
      (ofQuotient negative (coefficient * 10 ^ raised * unitsPerOne) 1) := by
  have hOne : (unitsPerOne : ℚ) ≠ 0 := by exact_mod_cast unitsPerOne_pos.ne'
  have hRounded :=
    isRounded_ofQuotient negative (coefficient * 10 ^ raised * unitsPerOne) Nat.one_pos
  rw [Nat.cast_one, div_one, Nat.cast_mul, mul_div_cancel_right₀ _ hOne, Nat.cast_mul,
    Nat.cast_pow, Nat.cast_ofNat] at hRounded
  exact hRounded

theorem isRounded_lowered (negative : Bool) (coefficient lowered : Nat) :
    IsRounded negative (coefficient / 10 ^ lowered)
      (ofQuotient negative (coefficient * unitsPerOne) (10 ^ lowered)) := by
  have hOne : (unitsPerOne : ℚ) ≠ 0 := by exact_mod_cast unitsPerOne_pos.ne'
  have hRounded := isRounded_ofQuotient negative (coefficient * unitsPerOne)
    (Nat.pow_pos (by decide) : 0 < 10 ^ lowered)
  rw [Nat.cast_mul, div_right_comm, mul_div_cancel_right₀ _ hOne, Nat.cast_pow,
    Nat.cast_ofNat] at hRounded
  exact hRounded

/-- The value of a coefficient and a power of ten is the correctly rounded one. -/
theorem isRounded_ofScientific (negative : Bool) (coefficient : Nat) (power : ℤ) :
    IsRounded negative (coefficient * 10 ^ power) (ofScientific negative coefficient power) := by
  unfold ofScientific
  split
  · next hZero =>
    rw [hZero, Nat.cast_zero, zero_mul]
    apply isRounded_zero negative le_rfl
    rw [mul_zero, zero_mul]
    exact zero_lt_one
  · next hCoefficient =>
    cases power with
    | ofNat raised =>
        rw [Int.ofNat_eq_natCast, zpow_natCast]
        dsimp only
        split
        · next hLarge => exact isRounded_infinity_of_le negative hCoefficient hLarge
        · exact isRounded_raised negative coefficient raised
    | negSucc lowered =>
        rw [zpow_negSucc, ← div_eq_mul_inv]
        dsimp only
        split
        · next hSmall =>
          apply isRounded_zero_of_lt negative
          exact mul_two_pow_lt_ten_pow (by unfold oneExponent; omega)
        · exact isRounded_lowered negative coefficient (lowered + 1)

end PlainSheet.Binary64
