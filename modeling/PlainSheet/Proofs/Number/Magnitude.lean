import PlainSheet.Proofs.Number.Nearest
import PlainSheet.Proofs.Number.Value

/-! Magnitudes by their significant bits, and the magnitude that a size is rounded to: the one that
is nearest to it, and the one whose word ends in a zero bit if two are equally near. Main result:
there is at most one. -/

namespace PlainSheet.Binary64

-- Powers of natural numbers are those of the core library in every module.
attribute [local instance (high)] instNatPowNat instPowNat

namespace IsNearest

variable {q : ℚ} {whole other : Nat}

theorem one_le_dist_add_dist (hOther : other ≠ whole) : 1 ≤ |q - whole| + |q - other| := by
  have hApart : (1 : ℚ) ≤ |(whole : ℚ) - other| := by
    have hInt : (1 : ℤ) ≤ |(whole : ℤ) - other| := Int.one_le_abs (by omega)
    exact_mod_cast hInt
  rw [abs_sub_comm q whole]
  exact hApart.trans (abs_sub_le _ _ _)

theorem dist_le (h : IsNearest q whole) (other : Nat) : |q - whole| ≤ |q - other| := by
  rcases eq_or_ne other whole with rfl | hOther
  · exact le_rfl
  · linarith [h.near, one_le_dist_add_dist (q := q) hOther]

theorem even_of_dist_eq (h : IsNearest q whole) (hOther : other ≠ whole)
    (hSame : |q - whole| = |q - other|) : Even whole :=
  h.even (by linarith [h.near, one_le_dist_add_dist (q := q) hOther])

/-- Between whole numbers nothing is rounded across one of them. -/
theorem le_of_le (h : IsNearest q whole) (hBound : q ≤ other) : whole ≤ other := by
  by_contra hMore
  have hNext : (other : ℚ) + 1 ≤ whole := by exact_mod_cast Nat.lt_of_not_le hMore
  linarith [(abs_le.mp h.near).1]

theorem le_of_ge (h : IsNearest q whole) (hBound : other ≤ q) : other ≤ whole := by
  by_contra hMore
  have hNext : (whole : ℚ) + 1 ≤ other := by exact_mod_cast Nat.lt_of_not_le hMore
  linarith [(abs_le.mp h.near).2]

end IsNearest

/-- The distance of a size to a multiple, in the parts that it is a multiple of. -/
theorem dist_mul (q : ℚ) {scale : Nat} (h : 0 < scale) (count : Nat) :
    |q - (count * scale : Nat)| = |q / scale - count| * scale := by
  have hScale : (0 : ℚ) < scale := by exact_mod_cast h
  rw [← abs_of_pos hScale, ← abs_mul, abs_of_pos hScale, sub_mul, div_mul_cancel₀ _ hScale.ne',
    Nat.cast_mul]

/-- From 53 significant bits on, the last of them decides what a number of units is a multiple
of. -/
theorem Representable.exists_eq_mul {units exponent : Nat} (h : Representable units)
    (hLarge : 2 ^ (fractionBits + exponent) ≤ units) : ∃ count, units = count * 2 ^ exponent := by
  obtain ⟨-, significand, power, hSignificand, rfl⟩ := h
  have hPower : 2 ^ (fractionBits + exponent) < 2 ^ (fractionBits + 1 + power) := by
    calc 2 ^ (fractionBits + exponent) ≤ significand * 2 ^ power := hLarge
      _ < significandLimit * 2 ^ power :=
          Nat.mul_lt_mul_of_pos_right hSignificand (Nat.two_pow_pos _)
      _ = 2 ^ (fractionBits + 1 + power) := (Nat.pow_add 2 (fractionBits + 1) power).symm
  have hExponent := (Nat.pow_lt_pow_iff_right (by decide)).mp hPower
  refine ⟨significand * 2 ^ (power - exponent), ?_⟩
  rw [Nat.mul_assoc, ← Nat.pow_add]
  congr 2
  omega

namespace Magnitude

variable {m : Magnitude}

/-- The power of two of the last significant bit. -/
def exponent (m : Magnitude) : Nat := m.units.log2 - fractionBits

/-- The significant bits of a magnitude, which are 53 unless it is very small. -/
def significand (m : Magnitude) : Nat := m.units / 2 ^ m.exponent

theorem bits_eq (m : Magnitude) : m.bits = m.exponent * fractionCount + m.significand := rfl

/-- The last bit of a word is that of the significand. -/
theorem even_bits_iff : Even m.bits ↔ Even m.significand := by
  have hEvenCount : Even fractionCount := ⟨2 ^ 51, by decide⟩
  rw [bits_eq, Nat.even_add, iff_true_left (hEvenCount.mul_left _)]

/-- The 53 bits of a significand start with a one if any unit is cut off. -/
theorem two_pow_le_units (h : m.exponent ≠ 0) : 2 ^ (fractionBits + m.exponent) ≤ m.units := by
  have hLog : fractionBits + m.exponent = m.units.log2 := by
    unfold exponent at h ⊢
    omega
  have hUnits : m.units ≠ 0 := by
    intro hZero
    simp [exponent, hZero] at h
  rw [hLog]
  exact Nat.log2_self_le hUnits

theorem units_eq (m : Magnitude) : m.units = m.significand * 2 ^ m.exponent := by
  obtain ⟨count, hCount⟩ : ∃ count, m.units = count * 2 ^ m.exponent := by
    by_cases hExponent : m.exponent = 0
    · exact ⟨m.units, by simp [hExponent]⟩
    · exact m.representable.exists_eq_mul (two_pow_le_units hExponent)
  rw [significand, Nat.div_mul_cancel (hCount ▸ Nat.dvd_mul_left _ _)]

theorem significand_lt (m : Magnitude) : m.significand < significandLimit := by
  rw [significand, Nat.div_lt_iff_lt_mul (Nat.two_pow_pos _)]
  calc m.units < 2 ^ (m.units.log2 + 1) := Nat.lt_log2_self
    _ ≤ 2 ^ (fractionBits + 1 + m.exponent) := by
      apply Nat.pow_le_pow_right (by decide)
      unfold exponent
      omega
    _ = significandLimit * 2 ^ m.exponent := Nat.pow_add _ _ _

/-- A significand that starts with a one, or a number of units that it is itself, is the one of its
magnitude. -/
theorem exponent_eq {count power : Nat} (hUnits : m.units = count * 2 ^ power)
    (hCount : count < significandLimit) (hFirst : power = 0 ∨ fractionCount ≤ count) :
    m.exponent = power := by
  have hUpper : m.units < 2 ^ (fractionBits + 1 + power) := by
    calc m.units = count * 2 ^ power := hUnits
      _ < significandLimit * 2 ^ power := Nat.mul_lt_mul_of_pos_right hCount (Nat.two_pow_pos _)
      _ = 2 ^ (fractionBits + 1 + power) := (Nat.pow_add _ _ _).symm
  rcases Nat.eq_zero_or_pos power with rfl | hPower
  · rcases Nat.eq_zero_or_pos m.units with hZero | hPositive
    · simp [exponent, hZero]
    · have hLog := (Nat.log2_lt hPositive.ne').mpr hUpper
      unfold exponent
      omega
  · have hFirst : fractionCount ≤ count := hFirst.resolve_left hPower.ne'
    have hLower : 2 ^ (fractionBits + power) ≤ m.units := by
      calc 2 ^ (fractionBits + power) = fractionCount * 2 ^ power := Nat.pow_add _ _ _
        _ ≤ count * 2 ^ power := Nat.mul_le_mul_right _ hFirst
        _ = m.units := hUnits.symm
    have hNonzero : m.units ≠ 0 := (Nat.lt_of_lt_of_le (Nat.two_pow_pos _) hLower).ne'
    have hLog := (Nat.log2_lt hNonzero).mpr hUpper
    have hLogLower := (Nat.le_log2 hNonzero).mpr hLower
    unfold exponent
    omega

theorem significand_eq {count power : Nat} (hUnits : m.units = count * 2 ^ power)
    (hCount : count < significandLimit) (hFirst : power = 0 ∨ fractionCount ≤ count) :
    m.significand = count := by
  rw [significand, exponent_eq hUnits hCount hFirst, hUnits,
    Nat.mul_div_cancel _ (Nat.two_pow_pos _)]

/-- A significand of 53 bits that was carried to 54 ends in a zero bit, as before. -/
theorem even_bits {count power : Nat} (hUnits : m.units = count * 2 ^ power)
    (hCount : count ≤ significandLimit) (hFirst : power = 0 ∨ fractionCount ≤ count)
    (hEven : Even count) : Even m.bits := by
  rw [even_bits_iff]
  rcases Nat.lt_or_eq_of_le hCount with hLess | hSame
  · rw [significand_eq hUnits hLess hFirst]
    exact hEven
  · have hHalf : significandLimit = fractionCount * 2 ^ 1 := by decide
    have hAbove : m.units = fractionCount * 2 ^ (1 + power) := by
      rw [hUnits, hSame, hHalf, Nat.mul_assoc, Nat.pow_add]
    rw [significand_eq hAbove (by decide) (.inr le_rfl)]
    exact ⟨2 ^ 51, by decide⟩

/-- No magnitude is nearer to a size, and the word ends in a zero bit if another is equally near. -/
structure IsRounding (q : ℚ) (m : Magnitude) : Prop where
  near : ∀ other : Magnitude, |q - m.size| ≤ |q - other.size|
  even : ∀ other : Magnitude, other ≠ m → |q - m.size| = |q - other.size| → Even m.bits

/-- Sizes differ as the numbers of units do. -/
theorem dist_size (m : Magnitude) (q : ℚ) :
    |q / unitsPerOne - m.size| = |q - m.units| / unitsPerOne := by
  have hOne : (0 : ℚ) < unitsPerOne := by exact_mod_cast unitsPerOne_pos
  rw [size, ← sub_div, abs_div, abs_of_pos hOne]

theorem isRounding_iff {q : ℚ} :
    m.IsRounding (q / unitsPerOne) ↔
      (∀ other : Magnitude, |q - m.units| ≤ |q - other.units|) ∧
      ∀ other : Magnitude, other ≠ m → |q - m.units| = |q - other.units| → Even m.bits := by
  have hOne : (0 : ℚ) < unitsPerOne := by exact_mod_cast unitsPerOne_pos
  constructor
  · intro h
    refine ⟨fun other => ?_, fun other hOther hSame => h.even other hOther ?_⟩
    · have hNear := h.near other
      rwa [dist_size, dist_size, div_le_div_iff_of_pos_right hOne] at hNear
    · rw [dist_size, dist_size, hSame]
  · intro h
    refine ⟨fun other => ?_, fun other hOther hSame => h.2 other hOther ?_⟩
    · rw [dist_size, dist_size, div_le_div_iff_of_pos_right hOne]
      exact h.1 other
    · rwa [dist_size, dist_size, div_left_inj' hOne.ne'] at hSame

theorem size_lt_size_iff {other : Magnitude} : m.size < other.size ↔ m.units < other.units := by
  have hOne : (0 : ℚ) < unitsPerOne := by exact_mod_cast unitsPerOne_pos
  rw [size, size, div_lt_div_iff_of_pos_right hOne, Nat.cast_lt]

theorem ext_size {other : Magnitude} (h : m.size = other.size) : m = other := by
  have hNotLess := fun hLess => (size_lt_size_iff.mpr hLess).ne h
  have hNotMore := fun hLess => (size_lt_size_iff.mpr hLess).ne h.symm
  exact ext_units (Nat.le_antisymm (Nat.le_of_not_lt hNotMore) (Nat.le_of_not_lt hNotLess))

/-- A larger magnitude is a multiple of the last bit, and so lies at least that bit above. -/
theorem exists_eq_mul_of_lt {other : Magnitude} (h : m.units < other.units) :
    ∃ count, other.units = count * 2 ^ m.exponent ∧ m.significand + 1 ≤ count := by
  obtain ⟨count, hCount⟩ : ∃ count, other.units = count * 2 ^ m.exponent := by
    by_cases hExponent : m.exponent = 0
    · exact ⟨other.units, by simp [hExponent]⟩
    · exact other.representable.exists_eq_mul ((two_pow_le_units hExponent).trans h.le)
  rw [hCount, m.units_eq] at h
  exact ⟨count, hCount, Nat.lt_of_mul_lt_mul_right h⟩

theorem fractionCount_le_significand (h : m.exponent ≠ 0) : fractionCount ≤ m.significand := by
  rw [significand, Nat.le_div_iff_mul_le (Nat.two_pow_pos _)]
  exact (Nat.pow_add 2 fractionBits m.exponent).symm.trans_le (two_pow_le_units h)

/-- Of two magnitudes whose words end in a zero bit, the one that ends in a one bit and follows the
first lies between them. -/
theorem exists_between {other : Magnitude} (h : m.units < other.units) (hEven : Even m.bits)
    (hOtherEven : Even other.bits) :
    ∃ n : Magnitude, m.units < n.units ∧ n.units < other.units := by
  obtain ⟨count, hOther, hCount⟩ := exists_eq_mul_of_lt h
  rw [even_bits_iff] at hEven hOtherEven
  have hOdd : ¬Even (m.significand + 1) := fun hNext => Nat.even_add_one.mp hNext hEven
  have hNext : m.significand + 1 < significandLimit := by
    refine Nat.lt_of_le_of_ne m.significand_lt fun hSame => hOdd ?_
    rw [hSame]
    exact ⟨2 ^ 52, by decide⟩
  have hDiffers : m.significand + 1 ≠ count := by
    rintro rfl
    refine hOdd ?_
    rw [significand_eq hOther hNext] at hOtherEven
    · exact hOtherEven
    · by_cases hExponent : m.exponent = 0
      · exact .inl hExponent
      · exact .inr (Nat.le_succ_of_le (fractionCount_le_significand hExponent))
  have hPower := Nat.two_pow_pos m.exponent
  have hLess : (m.significand + 1) * 2 ^ m.exponent < other.units := by
    rw [hOther]
    exact Nat.mul_lt_mul_of_pos_right (by omega) hPower
  refine ⟨⟨_, representable_of_le hNext.le (hLess.trans other.units_lt)⟩, ?_, hLess⟩
  rw [m.units_eq]
  exact Nat.mul_lt_mul_of_pos_right (Nat.lt_succ_self _) hPower

/-- If two magnitudes are equally near to a size, it is half-way between them, and a magnitude
between them is nearer. -/
theorem IsRounding.not_lt {q : ℚ} {other : Magnitude} (h : m.IsRounding q)
    (hOther : other.IsRounding q) : ¬m.units < other.units := by
  intro hLess
  have hDiffer : other ≠ m := by
    rintro rfl
    exact Nat.lt_irrefl _ hLess
  have hSame : |q - m.size| = |q - other.size| := le_antisymm (h.near other) (hOther.near m)
  obtain ⟨n, hAbove, hBelow⟩ := exists_between hLess (h.even other hDiffer hSame)
    (hOther.even m hDiffer.symm hSame.symm)
  rw [← size_lt_size_iff] at hLess hAbove hBelow
  have hMiddle : q - m.size = -(q - other.size) := by
    rcases abs_eq_abs.mp hSame with hEqual | hOpposite
    · exact absurd hEqual (by linarith)
    · exact hOpposite
  have hNear := h.near n
  have hPositive : 0 ≤ q - m.size := by linarith
  rw [abs_of_nonneg hPositive] at hNear
  have hNearer : |q - n.size| < q - m.size := abs_lt.mpr ⟨by linarith, by linarith⟩
  exact absurd hNear (not_le.mpr hNearer)

theorem IsRounding.unique {q : ℚ} {other : Magnitude} (h : m.IsRounding q)
    (hOther : other.IsRounding q) : m = other :=
  ext_units (Nat.le_antisymm (Nat.le_of_not_lt (hOther.not_lt h))
    (Nat.le_of_not_lt (h.not_lt hOther)))

/-- Nothing but itself is as near to a magnitude. -/
theorem IsRounding.eq_of_size {other : Magnitude} (h : m.IsRounding other.size) : m = other := by
  have hNear := h.near other
  rw [sub_self, abs_zero, abs_nonpos_iff, sub_eq_zero] at hNear
  exact ext_size hNear.symm

/-- The format holds every number of parts of one that has at most 53 bits. -/
theorem exists_size_eq {count places : Nat} (hCount : count ≤ significandLimit)
    (hPlaces : places ≤ oneExponent) : ∃ n : Magnitude, n.size = count / 2 ^ places := by
  have hLimit : count * 2 ^ (oneExponent - places) < unitsLimit := by
    calc count * 2 ^ (oneExponent - places)
        ≤ significandLimit * 2 ^ (oneExponent - places) := Nat.mul_le_mul_right _ hCount
      _ = 2 ^ (fractionBits + 1 + (oneExponent - places)) := (Nat.pow_add _ _ _).symm
      _ < 2 ^ (fractionBits + 1 + (oneExponent - places) + 1) :=
          Nat.pow_lt_pow_right (by decide) (Nat.lt_succ_self _)
      _ ≤ unitsLimit := by
          apply two_pow_le_unitsLimit
          unfold fractionBits oneExponent limitExponent
          omega
  refine ⟨⟨count * 2 ^ (oneExponent - places), representable_of_le hCount hLimit⟩, ?_⟩
  have hOne : unitsPerOne = 2 ^ (oneExponent - places) * 2 ^ places := by
    rw [unitsPerOne, ← Nat.pow_add, Nat.sub_add_cancel hPlaces]
  have hPower : ((2 ^ (oneExponent - places) : Nat) : ℚ) ≠ 0 := by
    exact_mod_cast (Nat.two_pow_pos _).ne'
  rw [size, hOne, Nat.cast_mul, Nat.cast_mul, mul_comm, mul_div_mul_left _ _ hPower, Nat.cast_pow,
    Nat.cast_ofNat]

/-- A magnitude with 53 bits before a place has no bit behind it. -/
theorem exists_count {places : Nat} (hPlaces : places ≤ fractionBits)
    (hSize : 2 ^ (fractionBits - places) ≤ m.size) :
    ∃ count : Nat, m.size = count / 2 ^ places := by
  have hOne : unitsPerOne = 2 ^ places * 2 ^ (oneExponent - places) := by
    rw [unitsPerOne, ← Nat.pow_add]
    congr 1
    unfold fractionBits at hPlaces
    unfold oneExponent
    omega
  have hOnePos : (0 : ℚ) < unitsPerOne := by exact_mod_cast unitsPerOne_pos
  have hLarge : 2 ^ (fractionBits + (oneExponent - places)) ≤ m.units := by
    rw [size, le_div_iff₀ hOnePos] at hSize
    have hUnits : 2 ^ (fractionBits - places) * unitsPerOne ≤ m.units := by exact_mod_cast hSize
    calc 2 ^ (fractionBits + (oneExponent - places))
        = 2 ^ (fractionBits - places) * 2 ^ places * 2 ^ (oneExponent - places) := by
          rw [← Nat.pow_add, ← Nat.pow_add, Nat.sub_add_cancel hPlaces]
      _ = 2 ^ (fractionBits - places) * unitsPerOne := by rw [hOne, Nat.mul_assoc]
      _ ≤ m.units := hUnits
  obtain ⟨count, hCount⟩ := m.representable.exists_eq_mul hLarge
  have hPower : ((2 ^ (oneExponent - places) : Nat) : ℚ) ≠ 0 := by
    exact_mod_cast (Nat.two_pow_pos _).ne'
  refine ⟨count, ?_⟩
  rw [size, hCount, hOne, Nat.cast_mul, Nat.cast_mul, mul_div_mul_right _ _ hPower, Nat.cast_pow,
    Nat.cast_ofNat]

end Magnitude

end PlainSheet.Binary64
