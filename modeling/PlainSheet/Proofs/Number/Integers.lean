import Mathlib.Data.Rat.Floor
import PlainSheet.Binary64.Arithmetic
import PlainSheet.Proofs.Number.Stability

/-! Integers up to 2⁵³. The format holds them exactly, and so sums, differences, products and
remainders that stay among them are exact. -/

namespace PlainSheet.Binary64

/-- A finite value is an integer. Zeros of either sign are the same integer. -/
def Holds (value : Binary64) (a : ℤ) : Prop :=
  ∃ negative m, value = finite negative m ∧ signed negative m.size = a

theorem signed_neg (negative : Bool) (size : ℚ) :
    signed (!negative) size = -signed negative size := by
  cases negative <;> simp [signed]

theorem signed_add (negative : Bool) (size other : ℚ) :
    signed negative (size + other) = signed negative size + signed negative other := by
  cases negative
  · rfl
  · simp only [signed, if_true]
    ring

theorem signed_sub (negative : Bool) (size other : ℚ) :
    signed negative (size - other) = signed negative size - signed negative other := by
  cases negative
  · rfl
  · simp only [signed, if_true]
    ring

/-- A product is below zero when the signs of its factors differ. -/
theorem signed_mul (negative other : Bool) (size otherSize : ℚ) :
    signed (negative != other) (size * otherSize) =
      signed negative size * signed other otherSize := by
  cases negative <;> cases other <;> simp [signed]

/-- An integer is written as its sign and then its absolute value. -/
theorem toString_int (a : ℤ) : toString a = signText (a < 0) ++ toString a.natAbs := by
  cases a with
  | ofNat n =>
      have hSign : decide (Int.ofNat n < 0) = false := decide_eq_false (by simp)
      rw [hSign]
      exact (String.empty_append).symm
  | negSucc n =>
      have hSign : decide (Int.negSucc n < 0) = true := decide_eq_true (Int.negSucc_lt_zero n)
      rw [hSign]
      rfl

/-- An integer is its absolute value with its sign. -/
theorem signed_natAbs (a : ℤ) : signed (a < 0) a.natAbs = a := by
  rw [Nat.cast_natAbs]
  by_cases hNegative : a < 0
  · rw [decide_eq_true hNegative, abs_of_neg hNegative]
    simp [signed]
  · rw [decide_eq_false hNegative, abs_of_nonneg (not_lt.mp hNegative)]
    rfl

/-- An integer up to 2⁵³ is not changed by rounding. -/
theorem holds_of_isRounded {negative : Bool} {q : ℚ} {value : Binary64} {a : ℤ}
    (h : IsRounded negative q value) (hNonneg : 0 ≤ q) (hValue : signed negative q = a)
    (hSmall : |a| ≤ 2 ^ 53) : Holds value a := by
  have hSize : q = a.natAbs := by
    rw [← abs_signed negative hNonneg, hValue, Nat.cast_natAbs, Int.cast_abs]
  have hCount : a.natAbs ≤ significandLimit := by
    have hLimit : significandLimit = 2 ^ 53 := rfl
    rw [Int.abs_eq_natAbs] at hSmall
    rw [hLimit]
    exact_mod_cast hSmall
  obtain ⟨m, hm⟩ := Magnitude.exists_size_eq hCount (Nat.zero_le _)
  rw [pow_zero, div_one] at hm
  rw [hSize, ← hm] at h
  refine ⟨negative, m, h.eq_finite, ?_⟩
  rw [hm, ← hSize, hValue]

/-- Units that make up an integer up to 2⁵³ are rounded to that integer. -/
theorem holds_ofUnits {negative : Bool} {units : Nat} {a : ℤ}
    (hValue : signed negative (units / unitsPerOne) = a) (hSmall : |a| ≤ 2 ^ 53) :
    Holds (ofUnits negative units) a := by
  have hRounded := isRounded_ofQuotient negative units Nat.one_pos
  have hNonneg : (0 : ℚ) ≤ units / unitsPerOne :=
    div_nonneg (Nat.cast_nonneg _) (Nat.cast_nonneg _)
  rw [Nat.cast_one, div_one] at hRounded
  exact holds_of_isRounded hRounded hNonneg hValue hSmall

/-- A difference of magnitudes is their difference in units. -/
theorem holds_ofUnits_sub {negative : Bool} {m n : Magnitude} {a : ℤ} (h : n.units ≤ m.units)
    (hValue : signed negative m.size - signed negative n.size = a) (hSmall : |a| ≤ 2 ^ 53) :
    Holds (ofUnits negative (m.units - n.units)) a := by
  apply holds_ofUnits _ hSmall
  rw [Nat.cast_sub h, sub_div, ← hValue, ← signed_sub]
  rfl

/-- An integer that is written out in full is read back without loss. -/
theorem holds_ofShown {a : ℤ} (hSmall : |a| ≤ 2 ^ 53) : Holds (ofShown (toString a)) a := by
  have hRounded := isRounded_ofShown_whole (a < 0) a.natAbs
  rw [← toString_int] at hRounded
  exact holds_of_isRounded hRounded (Nat.cast_nonneg _) (signed_natAbs a) hSmall

theorem holds_zero : Holds zero 0 := by
  refine ⟨false, Magnitude.zero, rfl, ?_⟩
  rw [Magnitude.size_zero, signed, Int.cast_zero]
  rfl

namespace Holds

variable {x y : Binary64} {a b : ℤ}

/-- Integers are shown without a point, and a zero of either sign as `0`. -/
theorem display (h : Holds x a) : x.display = toString a := by
  obtain ⟨negative, m, rfl, hValue⟩ := h
  rw [display_of_whole hValue, hValue, toString_int]
  simp

theorem neg (h : Holds x a) : Holds x.neg (-a) := by
  obtain ⟨negative, m, rfl, hValue⟩ := h
  refine ⟨!negative, m, rfl, ?_⟩
  rw [signed_neg, hValue, Int.cast_neg]

/-- Sums are exact. With opposite signs the smaller size is taken from the larger one, whose sign
is kept, and equal sizes leave zero. -/
theorem add (hx : Holds x a) (hy : Holds y b) (hSmall : |a + b| ≤ 2 ^ 53) :
    Holds (x.add y) (a + b) := by
  obtain ⟨s, m, rfl, ha⟩ := hx
  obtain ⟨t, n, rfl, hb⟩ := hy
  rw [Binary64.add]
  split
  · next hSign =>
    subst hSign
    have hSum : ((m.units + n.units : Nat) : ℚ) / unitsPerOne = m.size + n.size := by
      rw [Magnitude.size, Magnitude.size, Nat.cast_add, add_div]
    apply holds_ofUnits _ hSmall
    rw [hSum, signed_add, ha, hb, Int.cast_add]
  · next hSign =>
    -- The signs differ, so the integers are the sizes with one sign and with the other.
    obtain rfl : t = !s := Bool.eq_not_iff.mpr (Ne.symm hSign)
    rw [signed_neg] at hb
    have hDifference : (a + b : ℚ) = signed s m.size - signed s n.size := by linarith
    split
    · next hLess =>
      exact holds_ofUnits_sub hLess.le (by rw [Int.cast_add, hDifference]) hSmall
    · split
      · next hLess =>
        apply holds_ofUnits_sub hLess.le _ hSmall
        rw [signed_neg, signed_neg, Int.cast_add, hDifference, neg_sub_neg]
      · have hSame : m = n := Magnitude.ext_units (by omega)
        have hZero : a + b = 0 := by
          rw [hSame, sub_self] at hDifference
          exact_mod_cast hDifference
        rw [hZero]
        exact holds_zero

/-- Subtraction is addition of the operand with its sign changed. -/
theorem sub (hx : Holds x a) (hy : Holds y b) (hSmall : |a - b| ≤ 2 ^ 53) :
    Holds (x.sub y) (a - b) := by
  rw [sub_eq_add_neg] at hSmall ⊢
  exact hx.add hy.neg hSmall

/-- Products are exact. The product of two numbers of units is divided by the units of one, and
there is nothing to round. -/
theorem mul (hx : Holds x a) (hy : Holds y b) (hSmall : |a * b| ≤ 2 ^ 53) :
    Holds (x.mul y) (a * b) := by
  obtain ⟨s, m, rfl, ha⟩ := hx
  obtain ⟨t, n, rfl, hb⟩ := hy
  rw [Binary64.mul]
  have hProduct :
      ((m.units * n.units : Nat) : ℚ) / unitsPerOne / unitsPerOne = m.size * n.size := by
    rw [Magnitude.size, Magnitude.size, Nat.cast_mul, div_mul_div_comm, div_div]
  have hRounded := isRounded_ofQuotient (s != t) (m.units * n.units) unitsPerOne_pos
  rw [hProduct] at hRounded
  apply holds_of_isRounded hRounded (mul_nonneg m.size_nonneg n.size_nonneg) _ hSmall
  rw [signed_mul, ha, hb, Int.cast_mul]

/-- The units of an integer are a multiple of the units of one. -/
theorem natAbs_units {negative : Bool} {m : Magnitude} (h : signed negative m.size = a) :
    m.units = a.natAbs * unitsPerOne := by
  apply Magnitude.size_eq_iff.mp
  rw [← abs_signed negative m.size_nonneg, h, Nat.cast_natAbs, Int.cast_abs]

/-- The truncated remainder has the sign of the dividend. -/
theorem signed_tmod {negative : Bool} {size : ℚ} (hNonneg : 0 ≤ size)
    (h : signed negative size = a) (b : ℤ) :
    signed negative (a.tmod b).natAbs = a.tmod b := by
  rw [Nat.cast_natAbs]
  cases negative with
  | false =>
      have hDividend : 0 ≤ a := by
        rw [signed, if_neg Bool.false_ne_true] at h
        exact_mod_cast h ▸ hNonneg
      rw [abs_of_nonneg (Int.tmod_nonneg b hDividend)]
      rfl
  | true =>
      have hDividend : 0 ≤ -a := by
        rw [signed, if_pos rfl, neg_eq_iff_eq_neg] at h
        exact_mod_cast h ▸ hNonneg
      have hRemainder := Int.tmod_nonneg b hDividend
      rw [Int.neg_tmod, neg_nonneg] at hRemainder
      rw [abs_of_nonpos hRemainder, signed, if_pos rfl, Int.cast_neg, neg_neg]

/-- A remainder is smaller than the divisor, so it is exact whenever the divisor is. -/
theorem abs_tmod_lt (a : ℤ) (h : b ≠ 0) : |a.tmod b| < |b| := by
  rw [Int.abs_eq_natAbs, Int.abs_eq_natAbs, Int.natAbs_tmod]
  exact_mod_cast Nat.mod_lt _ (Int.natAbs_pos.mpr h)

/-- The remainder of the sizes in units, with the sign of the dividend, is the truncated remainder
of the integers. -/
theorem rem (hx : Holds x a) (hy : Holds y b) (hDivisor : b ≠ 0) (hSmall : |b| ≤ 2 ^ 53) :
    Holds (x.rem y) (a.tmod b) := by
  obtain ⟨s, m, rfl, ha⟩ := hx
  obtain ⟨t, n, rfl, hb⟩ := hy
  have hUnits : n.units ≠ 0 := by
    rw [natAbs_units hb]
    exact Nat.mul_ne_zero (Int.natAbs_ne_zero.mpr hDivisor) unitsPerOne_pos.ne'
  have hOne : (unitsPerOne : ℚ) ≠ 0 := by exact_mod_cast unitsPerOne_pos.ne'
  rw [Binary64.rem, if_neg hUnits]
  apply holds_ofUnits _ ((abs_tmod_lt a hDivisor).le.trans hSmall)
  rw [natAbs_units ha, natAbs_units hb, Nat.mul_mod_mul_right, Nat.cast_mul,
    mul_div_cancel_right₀ _ hOne, ← Int.natAbs_tmod, signed_tmod m.size_nonneg ha]

/-- Zeros of both signs, and nothing else, hold the integer zero. -/
theorem isZero (h : Holds x a) : x.isZero = decide (a = 0) := by
  obtain ⟨s, m, rfl, ha⟩ := h
  rw [Binary64.isZero, natAbs_units ha, Bool.eq_iff_iff, beq_iff_eq, decide_eq_true_iff,
    Nat.mul_eq_zero, or_iff_left unitsPerOne_pos.ne', Int.natAbs_eq_zero]

/-- The sign of a zero does not make it negative. -/
theorem isNegative (h : Holds x a) : x.isNegative = decide (a < 0) := by
  obtain ⟨s, m, rfl, ha⟩ := h
  rw [Binary64.isNegative, ← decide_signed_neg, ha]
  simp

/-- A remainder on the side of the divisor belongs to the quotient that is rounded down. -/
theorem eq_sub_mul_floor {r z : ℤ} (h : a = b * z + r)
    (hSide : 0 ≤ r ∧ r < b ∨ b < r ∧ r ≤ 0) : r = a - b * ⌊(a / b : ℚ)⌋ := by
  have hDivisor : (b : ℚ) ≠ 0 := by
    have hNonzero : b ≠ 0 := by omega
    exact_mod_cast hNonzero
  have hQuotient : (a / b : ℚ) = z + r / b := by
    rw [h, Int.cast_add, Int.cast_mul, add_div, mul_div_cancel_left₀ _ hDivisor]
  have hPart : ⌊(r / b : ℚ)⌋ = 0 := by
    rw [Int.floor_eq_zero_iff]
    rcases hSide with ⟨hNonneg, hLess⟩ | ⟨hMore, hNonpos⟩
    · have hNonnegCast : (0 : ℚ) ≤ r := by exact_mod_cast hNonneg
      have hLessCast : (r : ℚ) < b := by exact_mod_cast hLess
      have hPositive := hNonnegCast.trans_lt hLessCast
      exact ⟨div_nonneg hNonnegCast hPositive.le, (div_lt_one hPositive).mpr hLessCast⟩
    · have hNonposCast : (r : ℚ) ≤ 0 := by exact_mod_cast hNonpos
      have hMoreCast : (b : ℚ) < r := by exact_mod_cast hMore
      have hNegative := hMoreCast.trans_le hNonposCast
      exact ⟨div_nonneg_of_nonpos hNonposCast hNegative.le,
        (div_lt_one_of_neg hNegative).mpr hMoreCast⟩
  rw [hQuotient, Int.floor_intCast_add, hPart, add_zero, h]
  ring

/-- The floored remainder is the one that goes with the quotient that is rounded down. -/
theorem flooredRem (hx : Holds x a) (hy : Holds y b) (hDivisor : b ≠ 0) (hSmall : |b| ≤ 2 ^ 53) :
    Holds (x.flooredRem y) (a - b * ⌊(a / b : ℚ)⌋) := by
  have hRem := hx.rem hy hDivisor hSmall
  have hRange := abs_tmod_lt a hDivisor
  have hDivision : a = b * a.tdiv b + a.tmod b := (Int.mul_tdiv_add_tmod a b).symm
  rw [Binary64.flooredRem, hRem.isZero, hRem.isNegative, hy.isNegative]
  generalize a.tmod b = r at hRem hRange hDivision ⊢
  split
  · next hMove =>
    -- The divisor is added to a remainder on the other side of zero.
    have hSigns : r ≠ 0 ∧ (r < 0 ↔ ¬b < 0) := by grind
    have hMoved : a = b * (a.tdiv b - 1) + (r + b) := by linarith
    rw [← eq_sub_mul_floor hMoved (by grind)]
    exact hRem.add hy (by grind)
  · next hStay =>
    -- A remainder on the side of the divisor is the floored one already.
    have hSigns : r = 0 ∨ (r < 0 ↔ b < 0) := by grind
    rw [← eq_sub_mul_floor hDivision (by grind)]
    exact hRem

end Holds

end PlainSheet.Binary64
