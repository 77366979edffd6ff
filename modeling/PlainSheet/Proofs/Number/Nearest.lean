import Mathlib.Algebra.Order.Field.Basic
import Mathlib.Algebra.Ring.Parity
import Mathlib.Data.Rat.Cast.Order
import Mathlib.Tactic.FieldSimp
import Mathlib.Tactic.Linarith
import Mathlib.Tactic.NormNum
import PlainSheet.Binary64.Rounding

/-! Rounding to the nearest whole number, of two that are equally near to the even one. -/

namespace PlainSheet.Binary64

/-- No whole number is nearer, and one that is equally near is not even. -/
structure IsNearest (q : ℚ) (whole : Nat) : Prop where
  near : |q - whole| ≤ 1 / 2
  even : |q - whole| = 1 / 2 → Even whole

namespace IsNearest

variable {q : ℚ} {whole other : Nat}

theorem of_lt (h : |q - whole| < 1 / 2) : IsNearest q whole :=
  ⟨h.le, fun hHalf => absurd hHalf h.ne⟩

theorem of_even (h : |q - whole| = 1 / 2) (hEven : Even whole) : IsNearest q whole :=
  ⟨h.le, fun _ => hEven⟩

/-- Of two numbers the second is not the next, since they would be equally near and both
even. -/
theorem le (h : IsNearest q whole) (h' : IsNearest q other) : other ≤ whole := by
  by_contra hMore
  have hNext : whole + 1 ≤ other := by omega
  have hNextCast : (whole : ℚ) + 1 ≤ other := by exact_mod_cast hNext
  have hNear := (abs_le.mp h.near).2
  have hOtherNear := (abs_le.mp h'.near).1
  have hOther : (other : ℚ) = whole + 1 := by linarith
  have hHalf : q - whole = 1 / 2 := by linarith
  have hOtherHalf : q - other = -(1 / 2) := by linarith
  have hEven := h.even (by rw [hHalf]; norm_num)
  have hOtherEven := h'.even (by rw [hOtherHalf]; norm_num)
  have hSame : other = whole + 1 := by exact_mod_cast hOther
  exact Nat.even_add_one.mp (hSame ▸ hOtherEven) hEven

theorem unique (h : IsNearest q whole) (h' : IsNearest q other) : whole = other :=
  Nat.le_antisymm (h'.le h) (h.le h')

end IsNearest

/-- A quotient of natural numbers is rounded to the nearest. -/
theorem isNearest_roundedQuotient (numerator : Nat) {denominator : Nat} (h : 0 < denominator) :
    IsNearest ((numerator : ℚ) / denominator) (roundedQuotient numerator denominator) := by
  have hPos : (0 : ℚ) < denominator := by exact_mod_cast h
  have hValue : (numerator : ℚ) / denominator =
      (numerator / denominator : Nat) + ((numerator % denominator : Nat) : ℚ) / denominator := by
    rw [div_eq_iff hPos.ne', add_mul, div_mul_cancel₀ _ hPos.ne']
    exact_mod_cast (Nat.div_add_mod' numerator denominator).symm
  have hRest : (numerator % denominator : Nat) < (denominator : ℚ) := by
    exact_mod_cast Nat.mod_lt numerator h
  rw [roundedQuotient, hValue]
  generalize numerator / denominator = quotient
  generalize numerator % denominator = rest at hRest ⊢
  have hNonneg : 0 ≤ (rest : ℚ) / denominator := by positivity
  have hLessThanOne : (rest : ℚ) / denominator < 1 := (div_lt_one hPos).mpr hRest
  rcases Nat.lt_trichotomy (2 * rest) denominator with hLess | hHalf | hMore
  · have hPart : (rest : ℚ) / denominator < 1 / 2 := by
      rw [div_lt_div_iff₀ hPos two_pos]
      exact_mod_cast (by omega : rest * 2 < 1 * denominator)
    rw [if_pos hLess]
    apply IsNearest.of_lt
    rw [abs_lt]
    constructor <;> linarith
  · have hPart : (rest : ℚ) / denominator = 1 / 2 := by
      rw [div_eq_div_iff hPos.ne' two_ne_zero]
      exact_mod_cast (by omega : rest * 2 = 1 * denominator)
    rw [if_neg (by omega), if_neg (by omega), hPart]
    rcases Nat.mod_two_eq_zero_or_one quotient with hEven | hOdd
    · rw [hEven]
      exact .of_even (by norm_num) (Nat.even_iff.mpr hEven)
    · rw [hOdd]
      exact .of_even (by norm_num) (Nat.even_iff.mpr (by omega))
  · have hPart : 1 / 2 < (rest : ℚ) / denominator := by
      rw [div_lt_div_iff₀ two_pos hPos]
      exact_mod_cast (by omega : 1 * denominator < rest * 2)
    rw [if_neg (by omega), if_pos hMore]
    apply IsNearest.of_lt
    rw [Nat.cast_succ, abs_lt]
    constructor <;> linarith

end PlainSheet.Binary64
