import Mathlib.Data.Nat.Cast.Order.Field
import PlainSheet.Proofs.Number.Magnitude

/-! Correct rounding. A quotient is rounded to the magnitude that is nearest to it, and becomes an
infinity exactly if it is at least half-way from the largest magnitude to 2¹⁰²⁴. -/

namespace PlainSheet.Binary64

-- Powers of natural numbers are those of the core library in every module.
attribute [local instance (high)] instNatPowNat instPowNat

-- The limit is too large to be computed where it is compared with.
attribute [local irreducible] unitsLimit

/-- The greatest exponent that a significand of 53 bits has below the limit. -/
@[irreducible] def topExponent : Nat := 2045

theorem limitExponent_eq : limitExponent = fractionBits + 1 + topExponent := by
  unfold topExponent
  rfl

theorem topExponent_eq : topExponent = 970 + oneExponent + 1 := by
  unfold topExponent
  rfl

section Quotient

variable {numerator denominator : Nat}

/-- A quotient that is scaled down has 53 bits before the point. -/
theorem two_pow_le_quotient (h : scaleOf numerator denominator ≠ 0) :
    2 ^ (fractionBits + scaleOf numerator denominator) ≤ numerator / denominator := by
  have hLog : fractionBits + scaleOf numerator denominator = (numerator / denominator).log2 := by
    unfold scaleOf at h ⊢
    omega
  have hQuotient : numerator / denominator ≠ 0 := by
    intro hZero
    simp [scaleOf, hZero] at h
  rw [hLog]
  exact Nat.log2_self_le hQuotient

/-- The significand that a quotient is rounded to, before any carry. -/
theorem isNearest_scaled (numerator : Nat) (h : 0 < denominator) :
    IsNearest ((numerator : ℚ) / denominator / (2 ^ scaleOf numerator denominator : Nat))
      (roundedQuotient numerator (denominator * 2 ^ scaleOf numerator denominator)) := by
  rw [div_div, ← Nat.cast_mul]
  exact isNearest_roundedQuotient numerator (Nat.mul_pos h (Nat.two_pow_pos _))

theorem roundedQuotient_le_significandLimit (numerator denominator : Nat) :
    roundedQuotient numerator (denominator * 2 ^ scaleOf numerator denominator) ≤
      significandLimit :=
  Nat.le_trans (roundedQuotient_le _ _) (quotient_lt_significandLimit numerator denominator)

theorem le_roundedQuotient (numerator denominator : Nat) :
    numerator / denominator ≤ roundedQuotient numerator denominator := by
  unfold roundedQuotient
  dsimp only
  split
  · exact Nat.le_refl _
  · split <;> omega

theorem fractionCount_le_roundedQuotient (h : scaleOf numerator denominator ≠ 0) :
    fractionCount ≤
      roundedQuotient numerator (denominator * 2 ^ scaleOf numerator denominator) := by
  refine Nat.le_trans ?_ (le_roundedQuotient _ _)
  rw [← Nat.div_div_eq_div_mul, Nat.le_div_iff_mul_le (Nat.two_pow_pos _)]
  calc fractionCount * 2 ^ scaleOf numerator denominator
      = 2 ^ (fractionBits + scaleOf numerator denominator) := (Nat.pow_add _ _ _).symm
    _ ≤ numerator / denominator := two_pow_le_quotient h

/-- Any magnitude is a multiple of what the quotient is scaled down by, or it lies below the power
of two that the quotient starts with, which is a multiple and nearer. -/
theorem multiple_or_farther (m : Magnitude) (numerator denominator : Nat) :
    (∃ count, m.units = count * 2 ^ scaleOf numerator denominator) ∨
      |(numerator : ℚ) / denominator -
        (fractionCount * 2 ^ scaleOf numerator denominator : Nat)| <
          |(numerator : ℚ) / denominator - m.units| := by
  by_cases hScale : scaleOf numerator denominator = 0
  · exact .inl ⟨m.units, by simp [hScale]⟩
  · rcases Nat.lt_or_ge m.units (2 ^ (fractionBits + scaleOf numerator denominator)) with
      hBelow | hLarge
    · right
      have hPower : fractionCount * 2 ^ scaleOf numerator denominator =
          2 ^ (fractionBits + scaleOf numerator denominator) := (Nat.pow_add _ _ _).symm
      have hStart : ((2 ^ (fractionBits + scaleOf numerator denominator) : Nat) : ℚ) ≤
          (numerator : ℚ) / denominator :=
        le_trans (by exact_mod_cast two_pow_le_quotient hScale) Nat.cast_div_le
      have hUnits : (m.units : ℚ) <
          (2 ^ (fractionBits + scaleOf numerator denominator) : Nat) := by exact_mod_cast hBelow
      rw [hPower, abs_of_nonneg (by linarith), abs_of_nonneg (by linarith)]
      linarith
    · exact .inl (m.representable.exists_eq_mul hLarge)

/-- The multiple that a quotient is rounded to is the nearest magnitude. -/
theorem isRounding_of_units_eq (hDenominator : 0 < denominator) {m : Magnitude}
    (hUnits : m.units = roundedQuotient numerator
      (denominator * 2 ^ scaleOf numerator denominator) * 2 ^ scaleOf numerator denominator) :
    m.IsRounding ((numerator : ℚ) / denominator / unitsPerOne) := by
  have hNearest := isNearest_scaled numerator hDenominator
  have hPower := Nat.two_pow_pos (scaleOf numerator denominator)
  have hPowerCast : (0 : ℚ) < (2 ^ scaleOf numerator denominator : Nat) := by exact_mod_cast hPower
  have hMultiple : ∀ count : Nat, |(numerator : ℚ) / denominator - m.units| ≤
      |(numerator : ℚ) / denominator - (count * 2 ^ scaleOf numerator denominator : Nat)| := by
    intro count
    rw [hUnits, dist_mul _ hPower, dist_mul _ hPower]
    exact mul_le_mul_of_nonneg_right (hNearest.dist_le count) hPowerCast.le
  rw [Magnitude.isRounding_iff]
  constructor
  · intro other
    rcases multiple_or_farther other numerator denominator with ⟨count, hOther⟩ | hFarther
    · rw [hOther]
      exact hMultiple count
    · exact (hMultiple fractionCount).trans hFarther.le
  · intro other hOther hSame
    rcases multiple_or_farther other numerator denominator with ⟨count, hCount⟩ | hFarther
    · have hDiffers : count ≠
          roundedQuotient numerator (denominator * 2 ^ scaleOf numerator denominator) := by
        intro hEqual
        exact hOther (Magnitude.ext_units (by rw [hCount, hUnits, hEqual]))
      rw [hUnits, hCount, dist_mul _ hPower, dist_mul _ hPower,
        mul_left_inj' hPowerCast.ne'] at hSame
      refine Magnitude.even_bits hUnits (roundedQuotient_le_significandLimit _ _) ?_
        (hNearest.even_of_dist_eq hDiffers hSame)
      by_cases hScale : scaleOf numerator denominator = 0
      · exact .inl hScale
      · exact .inr (fractionCount_le_roundedQuotient hScale)
    · exact absurd hSame (ne_of_lt ((hMultiple fractionCount).trans_lt hFarther))

theorem quotient_scaled_lt (numerator : Nat) (h : 0 < denominator) :
    (numerator : ℚ) / denominator / (2 ^ scaleOf numerator denominator : Nat) <
      significandLimit := by
  have hScaled : 0 < denominator * 2 ^ scaleOf numerator denominator :=
    Nat.mul_pos h (Nat.two_pow_pos _)
  have hFloor := quotient_lt_significandLimit numerator denominator
  rw [Nat.div_lt_iff_lt_mul hScaled] at hFloor
  rw [div_div, ← Nat.cast_mul, div_lt_iff₀ (by exact_mod_cast hScaled)]
  exact_mod_cast hFloor

/-- The last significand before the limit is odd, so what is half-way above it is carried up. -/
theorem roundedSignificand_lt_iff {q : ℚ} {whole : Nat} (h : IsNearest q whole) :
    whole < significandLimit ↔ q < significandLimit - 1 / 2 := by
  have hNear := abs_le.mp h.near
  constructor
  · intro hWhole
    by_contra hMore
    have hLe : (whole : ℚ) + 1 ≤ significandLimit := by exact_mod_cast hWhole
    have hLast : (whole : ℚ) + 1 = significandLimit := by linarith
    have hHalf : q - whole = 1 / 2 := by linarith
    have hEven : Even whole := h.even (by rw [hHalf]; norm_num)
    have hOdd : whole + 1 = significandLimit := by exact_mod_cast hLast
    have hLimit : Even significandLimit := ⟨2 ^ 52, by decide⟩
    exact Nat.even_add_one.mp (hOdd ▸ hLimit) hEven
  · intro hLess
    have hCast : (whole : ℚ) < significandLimit := by linarith
    exact_mod_cast hCast

theorem unitsLimit_eq : unitsLimit = significandLimit * 2 ^ topExponent := by
  rw [unitsLimit, limitExponent_eq, Nat.pow_add, significandLimit]

theorem exists_nearestMagnitude_eq
    (h : roundedQuotient numerator (denominator * 2 ^ scaleOf numerator denominator) *
      2 ^ scaleOf numerator denominator < unitsLimit) :
    ∃ m : Magnitude, m.units = roundedQuotient numerator
        (denominator * 2 ^ scaleOf numerator denominator) * 2 ^ scaleOf numerator denominator ∧
      nearestMagnitude numerator denominator = some m :=
  ⟨_, rfl, dif_pos h⟩

theorem nearestMagnitude_eq_none
    (h : ¬roundedQuotient numerator (denominator * 2 ^ scaleOf numerator denominator) *
      2 ^ scaleOf numerator denominator < unitsLimit) :
    nearestMagnitude numerator denominator = none :=
  dif_neg h

theorem two_mul_two_pow_le {exponent other : Nat} (h : exponent < other) :
    2 * 2 ^ exponent ≤ 2 ^ other := by
  rw [← Nat.pow_succ']
  exact Nat.pow_le_pow_right (by decide) h

/-- A quotient with a smaller exponent is finite. -/
theorem lt_unitsLimit_of_scale_lt (hDenominator : 0 < denominator)
    (hScale : scaleOf numerator denominator < topExponent) :
    roundedQuotient numerator (denominator * 2 ^ scaleOf numerator denominator) *
        2 ^ scaleOf numerator denominator < unitsLimit ∧
      (numerator : ℚ) / denominator < (significandLimit - 1 / 2) * (2 ^ topExponent : Nat) := by
  have hCarried := roundedQuotient_le_significandLimit numerator denominator
  have hScaled := quotient_scaled_lt numerator hDenominator
  generalize roundedQuotient numerator (denominator * 2 ^ scaleOf numerator denominator) =
    rounded at hCarried ⊢
  generalize scaleOf numerator denominator = scale at *
  have hPower := two_mul_two_pow_le hScale
  have hPowerCast : 2 * ((2 ^ scale : Nat) : ℚ) ≤ (2 ^ topExponent : Nat) := by
    exact_mod_cast hPower
  have hScalePositive : (0 : ℚ) < (2 ^ scale : Nat) := by exact_mod_cast Nat.two_pow_pos scale
  constructor
  · calc rounded * 2 ^ scale ≤ significandLimit * 2 ^ scale := Nat.mul_le_mul_right _ hCarried
      _ < significandLimit * 2 ^ topExponent :=
          Nat.mul_lt_mul_of_pos_left (Nat.pow_lt_pow_right (by decide) hScale) (Nat.two_pow_pos _)
      _ = unitsLimit := unitsLimit_eq.symm
  · have hMany : (1 : ℚ) ≤ significandLimit := by exact_mod_cast Nat.two_pow_pos _
    rw [div_lt_iff₀ hScalePositive] at hScaled
    nlinarith

/-- A quotient with a larger exponent is not finite. -/
theorem unitsLimit_le_of_lt_scale (hScale : topExponent < scaleOf numerator denominator) :
    unitsLimit ≤ roundedQuotient numerator (denominator * 2 ^ scaleOf numerator denominator) *
        2 ^ scaleOf numerator denominator ∧
      (significandLimit - 1 / 2) * (2 ^ topExponent : Nat) ≤ (numerator : ℚ) / denominator := by
  have hSome : scaleOf numerator denominator ≠ 0 := by omega
  have hHalf : significandLimit = fractionCount * 2 := by decide
  have hLimit : unitsLimit ≤ fractionCount * 2 ^ scaleOf numerator denominator := by
    rw [unitsLimit_eq, hHalf, Nat.mul_assoc]
    exact Nat.mul_le_mul_left _ (two_mul_two_pow_le hScale)
  have hQuotient : unitsLimit ≤ numerator / denominator := by
    refine Nat.le_trans hLimit ?_
    calc fractionCount * 2 ^ scaleOf numerator denominator
        = 2 ^ (fractionBits + scaleOf numerator denominator) := (Nat.pow_add _ _ _).symm
      _ ≤ numerator / denominator := two_pow_le_quotient hSome
  constructor
  · exact Nat.le_trans hLimit (Nat.mul_le_mul_right _ (fractionCount_le_roundedQuotient hSome))
  · calc ((significandLimit : ℚ) - 1 / 2) * (2 ^ topExponent : Nat)
        ≤ significandLimit * (2 ^ topExponent : Nat) := by
          apply mul_le_mul_of_nonneg_right _ (Nat.cast_nonneg _)
          linarith
      _ = (unitsLimit : ℚ) := by rw [unitsLimit_eq, Nat.cast_mul]
      _ ≤ ((numerator / denominator : Nat) : ℚ) := by exact_mod_cast hQuotient
      _ ≤ (numerator : ℚ) / denominator := Nat.cast_div_le

/-- A quotient stays finite if it lies below the middle of the last significand and the limit. -/
theorem rounded_lt_unitsLimit_iff (numerator : Nat) (hDenominator : 0 < denominator) :
    roundedQuotient numerator (denominator * 2 ^ scaleOf numerator denominator) *
        2 ^ scaleOf numerator denominator < unitsLimit ↔
      (numerator : ℚ) / denominator < (significandLimit - 1 / 2) * (2 ^ topExponent : Nat) := by
  rcases Nat.lt_trichotomy (scaleOf numerator denominator) topExponent with hLess | hTop | hMore
  · obtain ⟨hRounded, hQuotient⟩ := lt_unitsLimit_of_scale_lt hDenominator hLess
    exact iff_of_true hRounded hQuotient
  · have hNearest := isNearest_scaled numerator hDenominator
    have hPower : (0 : ℚ) < (2 ^ topExponent : Nat) := by exact_mod_cast Nat.two_pow_pos topExponent
    rw [hTop] at hNearest ⊢
    rw [unitsLimit_eq, Nat.mul_lt_mul_right (Nat.two_pow_pos _), roundedSignificand_lt_iff hNearest,
      div_lt_iff₀ hPower]
  · obtain ⟨hRounded, hQuotient⟩ := unitsLimit_le_of_lt_scale hMore
    exact iff_of_false (Nat.not_lt.mpr hRounded) (not_lt.mpr hQuotient)

end Quotient

/-- The middle of the largest magnitude and 2¹⁰²⁴. Sizes from here on are too large. -/
def overflowSize : ℚ := 2 ^ 1024 - 2 ^ 970

theorem overflowSize_eq :
    overflowSize = (significandLimit - 1 / 2) * (2 ^ topExponent : Nat) / unitsPerOne := by
  have hOne : (unitsPerOne : ℚ) ≠ 0 := by exact_mod_cast unitsPerOne_pos.ne'
  have hLimit : (2 : ℚ) ^ 1024 = 2 * significandLimit * 2 ^ 970 := by
    have hCast : (significandLimit : ℚ) = 2 ^ 53 := by norm_num [significandLimit, fractionBits]
    rw [hCast, ← pow_succ', ← pow_add]
  have hTop : ((2 ^ topExponent : Nat) : ℚ) = 2 * 2 ^ 970 * unitsPerOne := by
    rw [topExponent_eq, unitsPerOne, Nat.cast_pow, Nat.cast_pow, Nat.cast_ofNat, pow_succ', pow_add,
      mul_assoc]
  rw [overflowSize, eq_div_iff hOne, hLimit, hTop]
  generalize (2 : ℚ) ^ 970 = half
  ring

theorem div_lt_overflowSize_iff {q : ℚ} :
    q / unitsPerOne < overflowSize ↔ q < (significandLimit - 1 / 2) * (2 ^ topExponent : Nat) := by
  rw [overflowSize_eq]
  exact div_lt_div_iff_of_pos_right (by exact_mod_cast unitsPerOne_pos)

/-- A value is the one that a size with a sign is rounded to. -/
inductive IsRounded (negative : Bool) (q : ℚ) : Binary64 → Prop where
  | finite {m : Magnitude} (below : q < overflowSize) (rounding : m.IsRounding q) :
      IsRounded negative q (finite negative m)
  | infinity (above : overflowSize ≤ q) : IsRounded negative q (infinity negative)

theorem isRounded_ofQuotient (negative : Bool) (numerator : Nat) {denominator : Nat}
    (h : 0 < denominator) :
    IsRounded negative ((numerator : ℚ) / denominator / unitsPerOne)
      (ofQuotient negative numerator denominator) := by
  have hLimit := (rounded_lt_unitsLimit_iff numerator h).trans div_lt_overflowSize_iff.symm
  unfold ofQuotient
  by_cases hFits : roundedQuotient numerator (denominator * 2 ^ scaleOf numerator denominator) *
      2 ^ scaleOf numerator denominator < unitsLimit
  · obtain ⟨m, hUnits, hMagnitude⟩ := exists_nearestMagnitude_eq hFits
    rw [hMagnitude]
    exact .finite (hLimit.mp hFits) (isRounding_of_units_eq h hUnits)
  · rw [nearestMagnitude_eq_none hFits]
    exact .infinity (not_lt.mp fun hLess => hFits (hLimit.mpr hLess))

/-- Of the numbers of 2²⁰⁴⁵ units, the limit is the first that is no magnitude. -/
theorem Magnitude.size_lt_overflowSize (m : Magnitude) : m.size < overflowSize := by
  rw [size, div_lt_overflowSize_iff]
  have hPower : (0 : ℚ) < (2 ^ topExponent : Nat) := by exact_mod_cast Nat.two_pow_pos _
  have hUnits := m.units_lt
  rcases Nat.lt_or_ge m.units (2 ^ (fractionBits + topExponent)) with hSmall | hLarge
  · have hSmallCast : (m.units : ℚ) < fractionCount * (2 ^ topExponent : Nat) := by
      rw [Nat.pow_add] at hSmall
      exact_mod_cast hSmall
    have hHalf : (fractionCount : ℚ) ≤ significandLimit - 1 / 2 := by
      norm_num [fractionCount, significandLimit, fractionBits]
    exact hSmallCast.trans_le (mul_le_mul_of_nonneg_right hHalf hPower.le)
  · obtain ⟨count, hCount⟩ := m.representable.exists_eq_mul hLarge
    rw [hCount, unitsLimit_eq] at hUnits
    have hLess := Nat.lt_of_mul_lt_mul_right hUnits
    have hLessCast : (count : ℚ) + 1 ≤ significandLimit := by exact_mod_cast hLess
    rw [hCount, Nat.cast_mul, mul_lt_mul_iff_left₀ hPower]
    linarith

namespace IsRounded

variable {negative : Bool} {q : ℚ} {value other : Binary64} {m : Magnitude}

theorem unique (h : IsRounded negative q value) (hOther : IsRounded negative q other) :
    value = other := by
  cases h with
  | finite below rounding =>
      cases hOther with
      | finite _ otherRounding => rw [rounding.unique otherRounding]
      | infinity above => exact absurd above (not_le.mpr below)
  | infinity above =>
      cases hOther with
      | finite below => exact absurd above (not_le.mpr below)
      | infinity => rfl

/-- A size below the middle is rounded to a magnitude. -/
theorem exists_isRounding (h : IsRounded negative q value) (hSize : q < overflowSize) :
    ∃ m, value = .finite negative m ∧ m.IsRounding q := by
  cases h with
  | finite _ rounding => exact ⟨_, rfl, rounding⟩
  | infinity above => exact absurd above (not_le.mpr hSize)

/-- A size that a magnitude has is not changed. -/
theorem eq_finite (h : IsRounded negative m.size value) : value = .finite negative m := by
  obtain ⟨n, rfl, hRounding⟩ := h.exists_isRounding m.size_lt_overflowSize
  rw [hRounding.eq_of_size]

end IsRounded

end PlainSheet.Binary64
