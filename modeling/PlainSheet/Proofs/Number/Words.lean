import Mathlib.Data.Rat.Cast.Order
import PlainSheet.Number.Display
import PlainSheet.Proofs.Address.Display
import PlainSheet.Proofs.Number.Nearest
import PlainSheet.Proofs.Number.Value

/-! The text of every binary64 word from its exact value. A whole number is written out in full,
and any other finite value is rounded to hundredths. Main result: the text of a word is the one
that its value determines, and it is a number of formulas exactly if the word is finite. -/

namespace PlainSheet

namespace NumberTree

/-- A positive number before any decimals is derived as a number from one on. -/
theorem exists_of_positive (minus : Bool) {whole : Nat} (h : 0 < whole)
    (decimals : Option (RangeRun '0' '9')) :
    ∃ tree : NumberTree, tree.chars = Numeral.signChars minus ++
      ((toString whole).toList ++ Numeral.fractionChars decimals.unattach) := by
  obtain ⟨leading, digits, hDigits⟩ := Address.exists_toDigits_eq h
  refine ⟨.fromOne minus leading digits decimals, ?_⟩
  rw [Nat.toString_eq_repr, Nat.toList_repr, hDigits]
  rfl

end NumberTree

theorem exists_digit {digit : Nat} (h : digit < 10) :
    ∃ c : RangeChar '0' '9', Nat.toDigits 10 digit = [c.val] := by
  have hAll : ∀ digit < 10, '0' ≤ Nat.digitChar digit ∧ Nat.digitChar digit ≤ '9' := by decide
  exact ⟨⟨digit.digitChar, hAll digit h⟩, Nat.toDigits_of_lt_base h⟩

namespace Binary64

theorem toList_signText (negative : Bool) :
    (signText negative).toList = Numeral.signChars negative := by
  cases negative <;> rfl

/-- A text is that of a rational number: a minus sign for the numbers below zero, and then a whole
number in full, or else the nearest number of hundredths with a point and two decimals. -/
structure DecimalText (q : ℚ) (text : String) : Prop where
  whole : ∀ z : ℤ, q = z → text = signText (q < 0) ++ toString z.natAbs
  rounded : (∀ z : ℤ, q ≠ z) → ∃ whole tenths last, tenths < 10 ∧ last < 10 ∧
    IsNearest (100 * |q|) (100 * whole + 10 * tenths + last) ∧
    text = signText (q < 0) ++ toString whole ++ "." ++ toString tenths ++ toString last

namespace DecimalText

variable {q : ℚ} {text other : String}

/-- Rounding to hundredths has one outcome, so a number has one text. -/
theorem unique (h : DecimalText q text) (h' : DecimalText q other) : text = other := by
  by_cases hWhole : ∃ z : ℤ, q = z
  · obtain ⟨z, hz⟩ := hWhole
    rw [h.whole z hz, h'.whole z hz]
  · obtain ⟨whole, tenths, last, hTenths, hLast, hNearest, hText⟩ :=
      h.rounded (not_exists.mp hWhole)
    obtain ⟨whole', tenths', last', hTenths', hLast', hNearest', hOther⟩ :=
      h'.rounded (not_exists.mp hWhole)
    have hSame := hNearest.unique hNearest'
    obtain ⟨rfl, rfl, rfl⟩ : whole = whole' ∧ tenths = tenths' ∧ last = last' := by omega
    rw [hText, hOther]

/-- The text of a rational number is a number of formulas. That of zero has no sign, and the one
of a number that is rounded to zero has a point behind the zero. -/
theorem exists_tree (h : DecimalText q text) : ∃ tree : NumberTree, tree.chars = text.toList := by
  by_cases hWhole : ∃ z : ℤ, q = z
  · obtain ⟨z, hz⟩ := hWhole
    rw [h.whole z hz, String.toList_append, toList_signText]
    rcases Nat.eq_zero_or_pos z.natAbs with hZero | hPositive
    · have hNotNegative : ¬q < 0 := by simp [hz, Int.natAbs_eq_zero.mp hZero]
      rw [hZero, decide_eq_false hNotNegative]
      exact ⟨.zero, rfl⟩
    · obtain ⟨tree, hTree⟩ := NumberTree.exists_of_positive (q < 0) hPositive none
      exact ⟨tree, hTree.trans (by simp [Numeral.fractionChars])⟩
  · obtain ⟨whole, tenths, last, hTenths, hLast, -, rfl⟩ := h.rounded (not_exists.mp hWhole)
    obtain ⟨c, hc⟩ := exists_digit hTenths
    obtain ⟨d, hd⟩ := exists_digit hLast
    have hDecimals : ∀ e ∈ [c.val, d.val], '0' ≤ e ∧ e ≤ '9' := by
      simp [c.property, d.property]
    have hChars : (signText (q < 0) ++ toString whole ++ "." ++ toString tenths ++
        toString last).toList =
          Numeral.signChars (q < 0) ++ ((toString whole).toList ++ ['.', c.val, d.val]) := by
      simp [toList_signText, hc, hd]
    rw [hChars]
    rcases Nat.eq_zero_or_pos whole with rfl | hPositive
    · exact ⟨.belowOne (q < 0) ⟨[c.val, d.val], hDecimals⟩, rfl⟩
    · exact NumberTree.exists_of_positive (q < 0) hPositive (some ⟨[c.val, d.val], hDecimals⟩)

end DecimalText

section Finite

variable {negative : Bool} {m : Magnitude}

theorem exists_whole_of_mod_eq_zero (h : m.units % unitsPerOne = 0) :
    ∃ z : ℤ, signed negative m.size = z := by
  obtain ⟨whole, hUnits⟩ := Nat.dvd_of_mod_eq_zero h
  rw [Nat.mul_comm] at hUnits
  rw [Magnitude.size_eq_iff.mpr hUnits]
  cases negative with
  | false => exact ⟨whole, rfl⟩
  | true => exact ⟨-whole, by simp [signed]⟩

theorem display_of_whole {z : ℤ} (h : signed negative m.size = z) :
    (finite negative m).display =
      signText (signed negative m.size < 0) ++ toString z.natAbs := by
  have hSize : m.size = z.natAbs := by
    rw [← abs_signed negative m.size_nonneg, h, Nat.cast_natAbs, Int.cast_abs]
  have hUnits := Magnitude.size_eq_iff.mp hSize
  have hWhole : m.units % unitsPerOne = 0 := by rw [hUnits, Nat.mul_mod_left]
  rw [display, if_pos hWhole, decide_signed_neg, hUnits, Nat.mul_div_cancel _ unitsPerOne_pos]

/-- A value that is not whole is not zero, so its sign is that of the format. -/
theorem display_of_not_whole (h : ∀ z : ℤ, signed negative m.size ≠ z) :
    (finite negative m).display = signText (signed negative m.size < 0) ++
      hundredthsText (roundedQuotient (m.units * 100) unitsPerOne) := by
  have hPart : m.units % unitsPerOne ≠ 0 := by
    intro hWhole
    obtain ⟨z, hz⟩ := exists_whole_of_mod_eq_zero hWhole
    exact h z hz
  have hUnits : m.units ≠ 0 := fun hZero => hPart (by rw [hZero, Nat.zero_mod])
  rw [display, if_neg hPart, decide_signed_neg, bne_iff_ne.mpr hUnits, Bool.and_true]

/-- The hundredths that are shown are the nearest ones, and the even ones at a tie. -/
theorem isNearest_hundredths (m : Magnitude) :
    IsNearest (100 * m.size) (roundedQuotient (m.units * 100) unitsPerOne) := by
  have hValue : 100 * m.size = ((m.units * 100 : Nat) : ℚ) / unitsPerOne := by
    rw [Nat.cast_mul, Nat.cast_ofNat, Magnitude.size, mul_comm, div_mul_eq_mul_div]
  rw [hValue]
  exact isNearest_roundedQuotient _ unitsPerOne_pos

theorem hundredthsText_eq (hundredths : Nat) :
    ∃ whole tenths last, tenths < 10 ∧ last < 10 ∧
      hundredths = 100 * whole + 10 * tenths + last ∧
      hundredthsText hundredths =
        toString whole ++ "." ++ toString tenths ++ toString last :=
  ⟨hundredths / 100, hundredths % 100 / 10, hundredths % 100 % 10, by omega, by omega, by omega,
    rfl⟩

/-- A finite value is shown as the text of its rational value. -/
theorem decimalText_display (negative : Bool) (m : Magnitude) :
    DecimalText (signed negative m.size) (finite negative m).display := by
  refine ⟨fun z => display_of_whole, fun h => ?_⟩
  obtain ⟨whole, tenths, last, hTenths, hLast, hHundredths, hText⟩ :=
    hundredthsText_eq (roundedQuotient (m.units * 100) unitsPerOne)
  refine ⟨whole, tenths, last, hTenths, hLast, ?_, ?_⟩
  · rw [abs_signed negative m.size_nonneg, ← hHundredths]
    exact isNearest_hundredths m
  · rw [display_of_not_whole h, hText]
    simp only [String.append_assoc]

end Finite

section Word

variable {word : UInt64}

theorem display_of_not_finite (h : exponentField word = 2047) :
    (ofBits word).display =
      if fractionField word ≠ 0 then "NaN" else if signBit word then "-Inf" else "Inf" := by
  by_cases hFraction : fractionField word = 0
  · rw [ofBits_of_infinity h hFraction, if_neg (not_not.mpr hFraction)]
    cases signBit word <;> rfl
  · rw [ofBits_of_nan h hFraction, if_pos hFraction]
    rfl

/-- The text of a finite word is that of the value which its fields give. -/
theorem decimalText_of_finite (h : exponentField word ≠ 2047) :
    DecimalText (wordValue word) (ofBits word).display := by
  obtain ⟨m, hWord, hSize⟩ := exists_ofBits_eq h
  rw [wordValue, hWord, ← hSize]
  exact decimalText_display (signBit word) m

theorem exists_numeral_of_finite (h : exponentField word ≠ 2047) :
    ∃ n, Numeral.ofString? (ofBits word).display = some n := by
  obtain ⟨tree, hTree⟩ := (decimalText_of_finite h).exists_tree
  exact ⟨tree.numeral, Numeral.ofChars?_eq_some_iff.mpr ⟨tree, hTree, rfl⟩⟩

theorem ofString?_display_of_not_finite (h : exponentField word = 2047) :
    Numeral.ofString? (ofBits word).display = none := by
  rw [display_of_not_finite h]
  split
  · decide
  · split <;> decide

end Word

/-- The text of every word. Words that are not finite have their names. The text of a finite word
is the one that its exact value determines, and the content that is an `=` and this text is a
number. The texts of all other words are not. -/
theorem display_exact (word : UInt64) :
    (exponentField word = 2047 → (ofBits word).display =
      if fractionField word ≠ 0 then "NaN" else if signBit word then "-Inf" else "Inf") ∧
    (exponentField word ≠ 2047 → ∀ text,
      (ofBits word).display = text ↔ DecimalText (wordValue word) text) ∧
    ((Numeral.ofString? (ofBits word).display).isSome = true ↔ exponentField word ≠ 2047) ∧
    (exponentField word ≠ 2047 →
      ∃ n, Content.ofString ("=" ++ (ofBits word).display) = .number n) := by
  refine ⟨display_of_not_finite, fun h text => ⟨?_, (decimalText_of_finite h).unique⟩, ?_, ?_⟩
  · intro hText
    exact hText ▸ decimalText_of_finite h
  · constructor
    · intro hNumeral h
      rw [ofString?_display_of_not_finite h] at hNumeral
      cases hNumeral
    · intro h
      exact Option.isSome_iff_exists.mpr (exists_numeral_of_finite h)
  · intro h
    obtain ⟨n, hNumeral⟩ := exists_numeral_of_finite h
    exact ⟨n, Content.ofString_of_numeral hNumeral⟩

/-- One eighth is half-way between two hundredths, and `-2⁻¹⁰` is rounded to a zero that keeps its
sign. -/
theorem display_exact_on_tie :
    wordValue 0x3fc0000000000000 = 1 / 8 ∧ (ofBits 0x3fc0000000000000).display = "0.12" ∧
      wordValue 0xbf50000000000000 = -(1 / 1024) ∧
      (ofBits 0xbf50000000000000).display = "-0.00" := by
  have hTie : DecimalText (1 / 8) "0.12" := by
    refine ⟨fun z hz => ?_, fun _ => ⟨0, 1, 2, by decide, by decide, .of_even ?_ (by decide), ?_⟩⟩
    · have hEight : 1 = z * 8 := by exact_mod_cast (div_eq_iff (by norm_num)).mp hz
      omega
    · norm_num
    · rw [decide_eq_false (by norm_num)]
      rfl
  have hSmall : DecimalText (-(1 / 1024)) "-0.00" := by
    refine ⟨fun z hz => ?_, fun _ => ⟨0, 0, 0, by decide, by decide, .of_lt ?_, ?_⟩⟩
    · rw [← neg_div] at hz
      have hMany : -1 = z * 1024 := by exact_mod_cast (div_eq_iff (by norm_num)).mp hz
      omega
    · norm_num
    · rw [decide_eq_true (by norm_num)]
      rfl
  have hTieFields : signBit 0x3fc0000000000000 = false ∧
      exponentField 0x3fc0000000000000 = 1020 ∧ fractionField 0x3fc0000000000000 = 0 := by decide
  have hTieValue : wordValue 0x3fc0000000000000 = 1 / 8 := by
    rw [wordValue, wordSize, hTieFields.1, hTieFields.2.1, hTieFields.2.2]
    norm_num [signed]
  have hSmallFields : signBit 0xbf50000000000000 = true ∧
      exponentField 0xbf50000000000000 = 1013 ∧ fractionField 0xbf50000000000000 = 0 := by decide
  have hSmallValue : wordValue 0xbf50000000000000 = -(1 / 1024) := by
    rw [wordValue, wordSize, hSmallFields.1, hSmallFields.2.1, hSmallFields.2.2]
    norm_num [signed]
  refine ⟨hTieValue, ?_, hSmallValue, ?_⟩
  · exact ((display_exact _).2.1 (by decide) _).mpr (hTieValue ▸ hTie)
  · exact ((display_exact _).2.1 (by decide) _).mpr (hSmallValue ▸ hSmall)

end Binary64

end PlainSheet
