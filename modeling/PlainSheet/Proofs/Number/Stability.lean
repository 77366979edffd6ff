import Mathlib.Logic.Function.Iterate
import PlainSheet.Proofs.Number.Leading
import PlainSheet.Proofs.Number.Words

/-! Values that are shown and read again. Main result: reading a shown value changes it at most
once, to the nearest value of its hundredths, and every further reading shows the same text. -/

namespace PlainSheet

-- Powers of natural numbers are those of the core library in every module.
attribute [local instance (high)] instNatPowNat instPowNat

/-- The digits of a whole number. -/
def wordOfNat (number : Nat) : RangeWord '0' '9' :=
  ⟨Nat.toDigits 10 number, Nat.toDigits_ne_nil,
    fun _ hc => isDigit_iff.mp (Nat.isDigit_of_mem_toDigits (by decide) (by decide) hc)⟩

theorem toList_toString (number : Nat) : (toString number).toList = (wordOfNat number).val := by
  rw [Nat.toString_eq_repr, Nat.toList_repr]
  rfl

namespace Binary64

/-- The value that an operand takes from the text that a value is shown as. -/
def reread (value : Binary64) : Binary64 := ofShown value.display

/-- The nearest number of hundredths. -/
def Magnitude.hundredths (m : Magnitude) : Nat := roundedQuotient (m.units * 100) unitsPerOne

/-- A whole number is read with correct rounding. -/
theorem isRounded_ofShown_whole (negative : Bool) (whole : Nat) :
    IsRounded negative whole (ofShown (signText negative ++ toString whole)) := by
  have hText : (signText negative ++ toString whole).toList = Numeral.signChars negative ++
      ((wordOfNat whole).val ++
        Numeral.fractionChars (none : Option (RangeRun '0' '9')).unattach) := by
    rw [String.toList_append, toList_signText, toList_toString]
    simp [Numeral.fractionChars]
  have hRounded := isRounded_ofScientific negative whole 0
  rw [zpow_zero, mul_one] at hRounded
  rw [ofShown_of_digits hText]
  simpa [wordOfNat] using hRounded

theorem digitChar_isDigit {digit : Nat} (h : digit < 10) :
    '0' ≤ digit.digitChar ∧ digit.digitChar ≤ '9' := by
  have hMem : digit.digitChar ∈ Nat.toDigits 10 digit := by
    rw [Nat.toDigits_of_lt_base h]
    exact List.mem_singleton_self _
  exact (wordOfNat digit).property.2 _ hMem

/-- A number of hundredths is read with correct rounding. -/
theorem isRounded_ofShown_hundredths (negative : Bool) (hundredths : Nat) :
    IsRounded negative (hundredths / 100)
      (ofShown (signText negative ++ hundredthsText hundredths)) := by
  obtain ⟨whole, tenths, last, hTenths, hLast, hHundredths, hShown⟩ := hundredthsText_eq hundredths
  have hDecimals : ∀ c ∈ [tenths.digitChar, last.digitChar], '0' ≤ c ∧ c ≤ '9' := by
    simp [digitChar_isDigit hTenths, digitChar_isDigit hLast]
  have hText : (signText negative ++ hundredthsText hundredths).toList =
      Numeral.signChars negative ++ ((wordOfNat whole).val ++
        Numeral.fractionChars (some (⟨_, hDecimals⟩ : RangeRun '0' '9')).unattach) := by
    simp [hShown, toList_signText, wordOfNat, Numeral.fractionChars,
      Nat.toDigits_of_lt_base hTenths, Nat.toDigits_of_lt_base hLast]
  have hCoefficient : Nat.ofDigitChars 10
      ((wordOfNat whole).val ++ [tenths.digitChar, last.digitChar]) 0 = hundredths := by
    rw [Nat.ofDigitChars_append, wordOfNat, Nat.ofDigitChars_ten_toDigits,
      Nat.ofDigitChars_cons_digitChar_of_lt_ten hTenths,
      Nat.ofDigitChars_cons_digitChar_of_lt_ten hLast, Nat.ofDigitChars_nil, hHundredths]
    omega
  have hRounded := isRounded_ofScientific negative hundredths (-2)
  have hPower : (hundredths : ℚ) * 10 ^ (-2 : ℤ) = hundredths / 100 := by
    rw [zpow_neg, div_eq_mul_inv]
    norm_num
  rw [hPower] at hRounded
  rw [ofShown_of_digits hText]
  simpa [hCoefficient] using hRounded

section Finite

variable {negative : Bool} {m : Magnitude} {whole : Nat}

theorem display_of_size (h : m.size = whole) :
    (finite negative m).display = signText (negative && whole != 0) ++ toString whole := by
  have hUnits := Magnitude.size_eq_iff.mp h
  have hSign : (m.units != 0) = (whole != 0) := by
    rw [Bool.eq_iff_iff, bne_iff_ne, bne_iff_ne, hUnits]
    simp [unitsPerOne_pos.ne']
  rw [display, if_pos (by rw [hUnits, Nat.mul_mod_left]), hSign, hUnits,
    Nat.mul_div_cancel _ unitsPerOne_pos]

/-- A value that is not whole is shown by its hundredths. -/
theorem display_of_no_size (h : ∀ whole : Nat, m.size ≠ whole) :
    (finite negative m).display = signText negative ++ hundredthsText m.hundredths := by
  have hPart : m.units % unitsPerOne ≠ 0 := by
    intro hWhole
    obtain ⟨whole, hUnits⟩ := Nat.dvd_of_mod_eq_zero hWhole
    exact h whole (Magnitude.size_eq_iff.mpr (hUnits.trans (Nat.mul_comm _ _)))
  rw [display, if_neg hPart]
  rfl

theorem exists_size_iff :
    (∃ z : ℤ, signed negative m.size = z) ↔ ∃ whole : Nat, m.size = whole := by
  constructor
  · intro h
    obtain ⟨z, hz⟩ := h
    refine ⟨z.natAbs, ?_⟩
    rw [← abs_signed negative m.size_nonneg, hz, Nat.cast_natAbs, Int.cast_abs]
  · intro h
    obtain ⟨whole, hSize⟩ := h
    rw [hSize]
    cases negative with
    | false => exact ⟨whole, rfl⟩
    | true => exact ⟨-whole, by simp [signed]⟩

/-- A whole value is read again exactly, but for the sign of zero. -/
theorem reread_of_size (h : m.size = whole) :
    reread (finite negative m) = finite (negative && whole != 0) m := by
  have hRounded := isRounded_ofShown_whole (negative && whole != 0) whole
  rw [← h] at hRounded
  rw [reread, display_of_size h]
  exact hRounded.eq_finite

theorem display_reread_of_size (h : m.size = whole) :
    (reread (finite negative m)).display = (finite negative m).display := by
  rw [reread_of_size h, display_of_size h, display_of_size h, Bool.and_assoc, Bool.and_self]

/-- Only values below 2⁵² have a part behind the point. -/
theorem hundredths_le (h : ∀ whole : Nat, m.size ≠ whole) : m.hundredths ≤ 100 * 2 ^ 52 := by
  have hBound : m.size ≤ 2 ^ 52 := by
    by_contra hLarge
    have hSize : 2 ^ (fractionBits - 0) ≤ m.size := (not_le.mp hLarge).le
    obtain ⟨count, hCount⟩ := Magnitude.exists_count (Nat.zero_le _) hSize
    rw [pow_zero, div_one] at hCount
    exact h count hCount
  apply (isNearest_hundredths m).le_of_le
  push_cast
  linarith

theorem exists_reread (negative : Bool) (h : ∀ whole : Nat, m.size ≠ whole) :
    ∃ n, reread (finite negative m) = finite negative n ∧
      n.IsRounding ((m.hundredths : ℚ) / 100) := by
  have hRounded := isRounded_ofShown_hundredths negative m.hundredths
  rw [← display_of_no_size h] at hRounded
  apply hRounded.exists_isRounding
  have hCount : 2 ^ 52 ≤ significandLimit := by decide
  obtain ⟨top, hTop⟩ := Magnitude.exists_size_eq hCount (Nat.zero_le _)
  have hHundredths : (m.hundredths : ℚ) ≤ 100 * 2 ^ 52 := by exact_mod_cast hundredths_le h
  calc (m.hundredths : ℚ) / 100 ≤ top.size := by
        rw [hTop]
        push_cast
        linarith
    _ < overflowSize := top.size_lt_overflowSize

end Finite

namespace Magnitude

variable {m n : Magnitude}

theorem dist_hundredths (m : Magnitude) : |(m.hundredths : ℚ) / 100 - m.size| ≤ 1 / 200 := by
  have hNear : |100 * m.size - m.hundredths| ≤ 1 / 2 := (isNearest_hundredths m).near
  obtain ⟨hLow, hHigh⟩ := abs_le.mp hNear
  exact abs_le.mpr ⟨by linarith, by linarith⟩

theorem dist_parts (q : ℚ) (parts places : Nat) :
    |2 ^ places * q - parts| = 2 ^ places * |q - parts / 2 ^ places| := by
  have hPower : (0 : ℚ) < 2 ^ places := by positivity
  have hParts : 2 ^ places * q - parts = 2 ^ places * (q - parts / 2 ^ places) := by
    rw [mul_sub, mul_div_cancel₀ _ hPower.ne']
  rw [hParts, abs_mul, abs_of_pos hPower]

/-- Below 2⁴⁶ there are values on either side of every hundredth that are less than a hundredth
apart. -/
theorem dist_lt_of_small (hSmall : m.size ≤ 2 ^ 46)
    (hRounding : n.IsRounding ((m.hundredths : ℚ) / 100)) :
    |(m.hundredths : ℚ) / 100 - n.size| < 1 / 200 := by
  have hHundredths : m.hundredths ≤ 100 * 2 ^ 46 := by
    apply (isNearest_hundredths m).le_of_le
    push_cast
    linarith
  have hHundredthsCast : (m.hundredths : ℚ) ≤ 100 * 2 ^ 46 := by exact_mod_cast hHundredths
  -- Of the values below 2⁴⁶, those with 7 bits behind the point are near enough already.
  have hParts : ((m.hundredths * 2 ^ 7 : Nat) : ℚ) / (100 : Nat) =
      2 ^ 7 * ((m.hundredths : ℚ) / 100) := by
    push_cast
    ring
  have hNearest := isNearest_roundedQuotient (m.hundredths * 2 ^ 7) (by decide : 0 < 100)
  rw [hParts] at hNearest
  generalize roundedQuotient (m.hundredths * 2 ^ 7) 100 = parts at hNearest
  have hCount : parts ≤ significandLimit := by
    apply hNearest.le_of_le
    have hLimit : (significandLimit : ℚ) = 2 ^ 53 := by norm_num [significandLimit, fractionBits]
    rw [hLimit]
    linarith
  obtain ⟨other, hOther⟩ := exists_size_eq hCount (by decide : 7 ≤ oneExponent)
  have hNear := hNearest.near
  rw [dist_parts, ← hOther] at hNear
  calc |(m.hundredths : ℚ) / 100 - n.size| ≤ |(m.hundredths : ℚ) / 100 - other.size| :=
        hRounding.near other
    _ < 1 / 200 := by linarith

/-- From 2⁴⁶ on values are more than a hundredth apart, so a value is the nearest to its own
hundredths. -/
theorem eq_of_large (hLarge : 2 ^ 46 ≤ m.size)
    (hRounding : n.IsRounding ((m.hundredths : ℚ) / 100)) : n = m := by
  have hHundredths : 100 * 2 ^ 46 ≤ m.hundredths := by
    apply (isNearest_hundredths m).le_of_ge
    push_cast
    linarith
  have hHundredthsCast : (100 * 2 ^ 46 : ℚ) ≤ m.hundredths := by exact_mod_cast hHundredths
  -- No rounding goes below a power of two that it starts from: both have 6 bits behind the point.
  have hEdgeCount : 2 ^ 46 ≤ significandLimit := by decide
  obtain ⟨edge, hEdge⟩ := exists_size_eq hEdgeCount (Nat.zero_le _)
  have hEdgeSize : edge.size = 2 ^ 46 := by
    rw [hEdge]
    norm_num
  have hOther : 2 ^ 46 ≤ n.size := by
    have hNear := hRounding.near edge
    rw [hEdgeSize, abs_of_nonneg (by linarith : (0 : ℚ) ≤ m.hundredths / 100 - 2 ^ 46)] at hNear
    linarith [(abs_le.mp hNear).2]
  obtain ⟨count, hCount⟩ := exists_count (by decide : 6 ≤ fractionBits) hLarge
  obtain ⟨other, hOtherCount⟩ := exists_count (by decide : 6 ≤ fractionBits) hOther
  have hNear := m.dist_hundredths
  have hOtherNear := (hRounding.near m).trans hNear
  have hSame : other = count := by
    by_contra hDiffer
    have hApart : 1 ≤ |2 ^ 6 * ((m.hundredths : ℚ) / 100) - count| +
        |2 ^ 6 * ((m.hundredths : ℚ) / 100) - other| := IsNearest.one_le_dist_add_dist hDiffer
    rw [dist_parts, dist_parts, ← hCount, ← hOtherCount] at hApart
    linarith
  apply ext_size
  rw [hCount, hOtherCount, hSame]

/-- A whole number of hundredths that is read again is that whole number. -/
theorem size_eq_of_whole {whole : Nat} (h : ∀ whole : Nat, m.size ≠ whole)
    (hWhole : m.hundredths = 100 * whole)
    (hRounding : n.IsRounding ((m.hundredths : ℚ) / 100)) : n.size = whole := by
  have hCount : whole ≤ significandLimit := by
    have hLimit : significandLimit = 2 * 2 ^ 52 := rfl
    have hLess := hundredths_le h
    omega
  obtain ⟨same, hSame⟩ := exists_size_eq hCount (Nat.zero_le _)
  have hValue : (m.hundredths : ℚ) / 100 = same.size := by
    rw [hSame, hWhole]
    push_cast
    ring
  rw [hValue] at hRounding
  rw [hRounding.eq_of_size, hSame, pow_zero, div_one]

/-- Any other number of hundredths is read as a value that has the same hundredths. -/
theorem hundredths_eq (h : ∀ whole : Nat, m.size ≠ whole)
    (hPart : ∀ whole : Nat, m.hundredths ≠ 100 * whole)
    (hRounding : n.IsRounding ((m.hundredths : ℚ) / 100)) :
    (∀ whole : Nat, n.size ≠ whole) ∧ n.hundredths = m.hundredths := by
  rcases le_total m.size (2 ^ 46) with hSmall | hLarge
  · have hNear := abs_lt.mp (dist_lt_of_small hSmall hRounding)
    have hScaled : |100 * n.size - m.hundredths| < 1 / 2 := by
      exact abs_lt.mpr ⟨by linarith, by linarith⟩
    refine ⟨fun whole hWhole => ?_, (isNearest_hundredths n).unique (.of_lt hScaled)⟩
    rw [hWhole] at hScaled
    have hNearest : IsNearest (100 * whole : Nat) m.hundredths := .of_lt (by exact_mod_cast hScaled)
    exact hPart whole (Nat.le_antisymm (hNearest.le_of_le le_rfl) (hNearest.le_of_ge le_rfl))
  · rw [eq_of_large hLarge hRounding]
    exact ⟨h, rfl⟩

end Magnitude

theorem eq_zero_of_digitChar_eq {digit : Nat} (h : digit < 10) (hZero : digit.digitChar = '0') :
    digit = 0 := by
  have hAll : ∀ digit < 10, Nat.digitChar digit = '0' → digit = 0 := by decide
  exact hAll digit h hZero

/-- The decimals of a whole number of hundredths, and of no other, are zeros. -/
theorem eq_of_hundredthsText {front : String} {negative : Bool} {hundredths : Nat}
    (h : signText negative ++ hundredthsText hundredths = front ++ ".00") :
    hundredths = 100 * (hundredths / 100) ∧
      front = signText negative ++ toString (hundredths / 100) := by
  obtain ⟨whole, tenths, last, hTenths, hLast, hHundredths, hShown⟩ := hundredthsText_eq hundredths
  have hList : (signText negative ++ toString whole).toList ++
      ['.', tenths.digitChar, last.digitChar] = front.toList ++ ['.', '0', '0'] := by
    have hChars := congrArg String.toList h
    rw [hShown] at hChars
    simpa [Nat.toDigits_of_lt_base hTenths, Nat.toDigits_of_lt_base hLast] using hChars
  obtain ⟨hFront, hDecimals⟩ := List.append_inj' hList rfl
  simp only [List.cons.injEq] at hDecimals
  obtain ⟨-, hTenthsChar, hLastChar, -⟩ := hDecimals
  have hTenthsZero := eq_zero_of_digitChar_eq hTenths hTenthsChar
  have hLastZero := eq_zero_of_digitChar_eq hLast hLastChar
  have hWhole : hundredths / 100 = whole := by omega
  rw [hWhole]
  exact ⟨by omega, String.toList_inj.mp hFront.symm⟩

/-- A number without a sign is not written with one. -/
theorem signText_append_eq_iff {negative : Bool} {whole : Nat} :
    signText negative ++ toString whole = "-0" ↔ negative = true ∧ whole = 0 := by
  constructor
  · intro h
    cases negative with
    | true =>
        have hDigits : Nat.toDigits 10 whole = ['0'] := by
          simpa [signText] using congrArg String.toList h
        refine ⟨rfl, ?_⟩
        rw [← Nat.ofDigitChars_ten_toDigits (n := whole), hDigits]
        rfl
    | false =>
        have hChars : (wordOfNat whole).val = ['-', '0'] := by
          rw [← toList_toString]
          simpa [signText] using congrArg String.toList h
        have hMinus : '-' ∈ (wordOfNat whole).val := by simp [hChars]
        exact absurd (isDigit_of_mem_word '-' hMinus) (by decide)
  · intro h
    obtain ⟨rfl, rfl⟩ := h
    rfl

section Finite

variable {negative : Bool} {m : Magnitude}

theorem reread_of_whole (h : ∃ z : ℤ, signed negative m.size = z) :
    reread (finite negative m) = if m.units = 0 then zero else finite negative m := by
  obtain ⟨whole, hSize⟩ := exists_size_iff.mp h
  rw [reread_of_size hSize]
  by_cases hZero : m.units = 0
  · have hWhole : whole = 0 := by
      rw [Magnitude.size_eq_zero_iff.mpr hZero] at hSize
      exact_mod_cast hSize.symm
    have hMagnitude : m = Magnitude.zero := Magnitude.ext_units hZero
    rw [if_pos hZero, hWhole, hMagnitude, bne_self_eq_false, Bool.and_false, zero]
  · have hWhole : whole ≠ 0 := by
      rintro rfl
      exact hZero (Magnitude.size_eq_zero_iff.mp (by simpa using hSize))
    rw [if_neg hZero, bne_iff_ne.mpr hWhole, Bool.and_true]

theorem display_of_zeros {whole : Nat} (h : ∀ whole : Nat, m.size ≠ whole)
    (hWhole : m.hundredths = 100 * whole) :
    (finite negative m).display = signText negative ++ toString whole ++ ".00" := by
  have hDecimals : 100 * whole % 100 = 0 := Nat.mul_mod_right 100 whole
  have hFront : 100 * whole / 100 = whole := Nat.mul_div_cancel_left whole (by decide)
  rw [display_of_no_size h, hWhole, hundredthsText, hDecimals, hFront]
  simp only [String.append_assoc]
  rfl

/-- The text of any other value is kept, unless its decimals are zeros. -/
theorem display_reread_of_part {n : Magnitude} (h : ∀ whole : Nat, m.size ≠ whole)
    (hPart : ∀ whole : Nat, m.hundredths ≠ 100 * whole)
    (hReread : reread (finite negative m) = finite negative n)
    (hRounding : n.IsRounding ((m.hundredths : ℚ) / 100)) :
    (reread (finite negative m)).display = (finite negative m).display := by
  obtain ⟨hOther, hSame⟩ := Magnitude.hundredths_eq h hPart hRounding
  rw [hReread, display_of_no_size hOther, display_of_no_size h, hSame]

end Finite

theorem exists_finite_reread (negative : Bool) (m : Magnitude) :
    ∃ sign n, reread (finite negative m) = finite sign n := by
  by_cases h : ∃ whole : Nat, m.size = whole
  · obtain ⟨whole, hSize⟩ := h
    exact ⟨_, _, reread_of_size hSize⟩
  · obtain ⟨n, hReread, -⟩ := exists_reread negative (not_exists.mp h)
    exact ⟨negative, n, hReread⟩

/-- From the first time on, reading what is shown changes the text no more. -/
theorem display_reread_reread (negative : Bool) (m : Magnitude) :
    (reread (reread (finite negative m))).display = (reread (finite negative m)).display := by
  by_cases h : ∃ whole : Nat, m.size = whole
  · obtain ⟨whole, hSize⟩ := h
    rw [reread_of_size hSize]
    exact display_reread_of_size hSize
  · rw [not_exists] at h
    obtain ⟨n, hReread, hRounding⟩ := exists_reread negative h
    by_cases hWhole : ∃ whole : Nat, m.hundredths = 100 * whole
    · obtain ⟨whole, hHundredths⟩ := hWhole
      rw [hReread]
      exact display_reread_of_size (Magnitude.size_eq_of_whole h hHundredths hRounding)
    · rw [not_exists] at hWhole
      have hDisplay := display_reread_of_part h hWhole hReread hRounding
      rw [reread, hDisplay, ← reread, hDisplay]

theorem exists_iterate_reread (negative : Bool) (m : Magnitude) (count : Nat) :
    ∃ sign n, reread^[count] (finite negative m) = finite sign n := by
  induction count with
  | zero => exact ⟨negative, m, rfl⟩
  | succ count ih =>
      obtain ⟨sign, n, hReread⟩ := ih
      rw [Function.iterate_succ_apply', hReread]
      exact exists_finite_reread sign n

theorem display_iterate_reread (negative : Bool) (m : Magnitude) (count : Nat) :
    (reread^[count + 1] (finite negative m)).display = (reread (finite negative m)).display := by
  induction count with
  | zero => rfl
  | succ count ih =>
      obtain ⟨sign, n, hReread⟩ := exists_iterate_reread negative m count
      rw [Function.iterate_succ_apply', hReread] at ih
      rw [Function.iterate_succ_apply', Function.iterate_succ_apply', hReread,
        display_reread_reread, ih]

/-- Every finite value is read again as a finite value. A whole one is the same again, except that
zero loses its sign. Any other keeps its text, unless the text ends in two zeros behind the point,
which it then loses. Nothing changes the text after that. -/
theorem reread_stable (negative : Bool) (m : Magnitude) :
    (∃ sign n, reread (finite negative m) = finite sign n) ∧
    ((∃ z : ℤ, signed negative m.size = z) →
      reread (finite negative m) = (if m.units = 0 then zero else finite negative m) ∧
      (reread (finite negative m)).display = (finite negative m).display) ∧
    ((∀ z : ℤ, signed negative m.size ≠ z) →
      ((∀ front, (finite negative m).display ≠ front ++ ".00") →
        (reread (finite negative m)).display = (finite negative m).display) ∧
      ∀ front, (finite negative m).display = front ++ ".00" →
        (reread (finite negative m)).display = if front = "-0" then "0" else front) ∧
    ∀ count, (reread^[count + 1] (finite negative m)).display =
      (reread (finite negative m)).display := by
  refine ⟨exists_finite_reread negative m, fun h => ⟨reread_of_whole h, ?_⟩, fun h => ?_,
    display_iterate_reread negative m⟩
  · obtain ⟨whole, hSize⟩ := exists_size_iff.mp h
    exact display_reread_of_size hSize
  · have hSize : ∀ whole : Nat, m.size ≠ whole := by
      intro whole hSize
      obtain ⟨z, hz⟩ := exists_size_iff.mpr ⟨whole, hSize⟩
      exact h z hz
    obtain ⟨n, hReread, hRounding⟩ := exists_reread negative hSize
    constructor
    · intro hFront
      apply display_reread_of_part hSize _ hReread hRounding
      intro whole hWhole
      exact hFront _ (display_of_zeros hSize hWhole)
    · intro front hFront
      rw [display_of_no_size hSize] at hFront
      obtain ⟨hWhole, rfl⟩ := eq_of_hundredthsText hFront
      rw [hReread, display_of_size (Magnitude.size_eq_of_whole hSize hWhole hRounding)]
      by_cases hZero : negative = true ∧ m.hundredths / 100 = 0
      · rw [if_pos (signText_append_eq_iff.mpr hZero), hZero.1, hZero.2]
        rfl
      · have hSign : (negative && m.hundredths / 100 != 0) = negative := by
          cases negative with
          | false => rfl
          | true => simpa using hZero
        rw [if_neg (mt signText_append_eq_iff.mp hZero), hSign]

/-- One eighth keeps its two decimals, and `-2⁻¹⁰` is shown without any from the second time on. -/
theorem reread_stable_on_parts : ∃ eighth small : Magnitude,
    eighth.size = 1 / 8 ∧ (reread (finite false eighth)).display = (finite false eighth).display ∧
      small.size = 1 / 2 ^ 10 ∧ (finite true small).display = "-0.00" ∧
      (reread (finite true small)).display = "0" := by
  obtain ⟨eighth, hEighth⟩ := Magnitude.exists_size_eq (by decide : 1 ≤ significandLimit)
    (by decide : 3 ≤ oneExponent)
  obtain ⟨small, hSmall⟩ := Magnitude.exists_size_eq (by decide : 1 ≤ significandLimit)
    (by decide : 10 ≤ oneExponent)
  have hPart : ∀ n : Magnitude, 0 < n.size → n.size < 1 → ∀ whole : Nat, n.size ≠ whole := by
    intro n hPositive hBelow whole hWhole
    rw [hWhole] at hPositive hBelow
    have hSome : 0 < whole := by exact_mod_cast hPositive
    have hNone : whole < 1 := by exact_mod_cast hBelow
    omega
  have hSigned : ∀ negative (n : Magnitude), 0 < n.size → n.size < 1 →
      ∀ z : ℤ, signed negative n.size ≠ z := by
    intro negative n hPositive hBelow z hz
    obtain ⟨whole, hWhole⟩ := exists_size_iff.mp ⟨z, hz⟩
    exact hPart n hPositive hBelow whole hWhole
  have hTwelve : eighth.hundredths = 12 :=
    (isNearest_hundredths eighth).unique (.of_even (by rw [hEighth]; norm_num) (by decide))
  have hNone : small.hundredths = 0 :=
    (isNearest_hundredths small).unique (.of_lt (by rw [hSmall]; norm_num [abs_lt]))
  have hFront : ∀ front, (finite false eighth).display ≠ front ++ ".00" := by
    intro front hFront
    rw [display_of_no_size (hPart eighth (by norm_num [hEighth]) (by norm_num [hEighth])),
      hTwelve] at hFront
    exact absurd (eq_of_hundredthsText hFront).1 (by decide)
  have hDisplay : (finite true small).display = "-0" ++ ".00" := by
    rw [display_of_no_size (hPart small (by norm_num [hSmall]) (by norm_num [hSmall])), hNone]
    rfl
  refine ⟨eighth, small, by norm_num [hEighth], ?_, by norm_num [hSmall], hDisplay, ?_⟩
  · exact ((reread_stable false eighth).2.2.1
      (hSigned false eighth (by norm_num [hEighth]) (by norm_num [hEighth]))).1 hFront
  · exact ((reread_stable true small).2.2.1
      (hSigned true small (by norm_num [hSmall]) (by norm_num [hSmall]))).2 "-0" hDisplay

end Binary64

end PlainSheet
