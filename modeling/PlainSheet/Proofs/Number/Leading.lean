import PlainSheet.Proofs.Address.RoundTrip
import PlainSheet.Proofs.Number.Conversion
import PlainSheet.Proofs.Number.Scientific

/-! The numbers that operands are read from. Main result: an operand is the longest decimal number
that its text starts with behind white space, converted with correct rounding, and a number of
formulas is the same value as an operand. -/

namespace PlainSheet

-- Powers of natural numbers are those of the core library in every module.
attribute [local instance (high)] instNatPowNat instPowNat

namespace Digits

/-- A number of so many digits is below that power of ten. -/
theorem ofDigitChars_lt {digits : List Char} (h : ∀ c ∈ digits, '0' ≤ c ∧ c ≤ '9') :
    Nat.ofDigitChars 10 digits 0 < 10 ^ digits.length := by
  induction digits with
  | nil => simp
  | cons c digits ih =>
      obtain ⟨hDigit, hRest⟩ := List.forall_mem_cons.mp h
      obtain ⟨hValue, -⟩ := Address.value_of_digit hDigit
      rw [Nat.ofDigitChars_cons, Nat.mul_zero, Nat.zero_add, Nat.ofDigitChars_eq_ofDigitChars_zero]
      calc 10 ^ digits.length * (c.toNat - '0'.toNat) + Nat.ofDigitChars 10 digits 0
          < 10 ^ digits.length * (c.toNat - '0'.toNat) + 10 ^ digits.length :=
            Nat.add_lt_add_left (ih hRest) _
        _ = 10 ^ digits.length * (c.toNat - '0'.toNat + 1) := (Nat.mul_succ _ _).symm
        _ ≤ 10 ^ digits.length * 10 := Nat.mul_le_mul_left _ hValue
        _ = 10 ^ (c :: digits).length := (Nat.pow_succ _ _).symm

end Digits

namespace Decimal

/-- An exponent that has reached the limit is not read any further. -/
theorem foldl_extendExponent_of_limit_le {size : Nat} (h : exponentLimit ≤ size)
    (digits : List Char) : digits.foldl extendExponent size = size := by
  induction digits with
  | nil => rfl
  | cons digit digits ih => rw [List.foldl_cons, extendExponent, if_neg (Nat.not_lt.mpr h), ih]

/-- No exponent that reaches the limit is read as one below it. -/
theorem min_le_foldl_extendExponent (digits : List Char) (size : Nat) :
    min (Nat.ofDigitChars 10 digits size) exponentLimit ≤ digits.foldl extendExponent size := by
  induction digits generalizing size with
  | nil => exact Nat.min_le_left _ _
  | cons digit digits ih =>
      rcases Nat.lt_or_ge size exponentLimit with hSize | hSize
      · rw [List.foldl_cons, extendExponent, if_pos hSize, Nat.ofDigitChars_cons, Nat.mul_comm 10]
        exact ih _
      · rw [foldl_extendExponent_of_limit_le hSize]
        exact Nat.le_trans (Nat.min_le_right _ _) hSize

theorem exponentLimit_le_exponentSize {digits : List Char}
    (h : exponentLimit ≤ Nat.ofDigitChars 10 digits 0) : exponentLimit ≤ exponentSize digits := by
  have hLeast := min_le_foldl_extendExponent digits 0
  rwa [Nat.min_eq_right h] at hLeast

end Decimal

namespace Binary64

variable {coefficient : Nat} {power : ℤ}

/-- A whole number is too large with a power of ten from 10³⁴² on. -/
theorem isRounded_infinity_of_high (negative : Bool) (hCoefficient : coefficient ≠ 0)
    (hPower : 342 ≤ power) : IsRounded negative (coefficient * 10 ^ power) (infinity negative) := by
  obtain ⟨raised, rfl⟩ := Int.eq_ofNat_of_zero_le (by omega : 0 ≤ power)
  rw [zpow_natCast]
  exact isRounded_infinity_of_le negative hCoefficient (by omega)

/-- A number of few digits is as good as zero with a power of ten that brings it below 10⁻³⁵⁹. -/
theorem isRounded_zero_of_low (negative : Bool) {count : Nat}
    (hCoefficient : coefficient < 10 ^ count) (hPower : power + count ≤ -359) :
    IsRounded negative (coefficient * 10 ^ power) (finite negative Magnitude.zero) := by
  obtain ⟨lowered, hLowered⟩ := Int.eq_ofNat_of_zero_le (by omega : 0 ≤ -power)
  obtain rfl : power = -lowered := by omega
  obtain ⟨beyond, rfl⟩ := Nat.exists_eq_add_of_le (by omega : count ≤ lowered)
  have hSmall : coefficient * 2 ^ (oneExponent + 1) < 10 ^ (count + beyond) := by
    calc coefficient * 2 ^ (oneExponent + 1)
        < 10 ^ count * 2 ^ (oneExponent + 1) :=
          Nat.mul_lt_mul_of_pos_right hCoefficient (Nat.two_pow_pos _)
      _ ≤ 10 ^ count * 2 ^ (3 * beyond) :=
          Nat.mul_le_mul_left _ (Nat.pow_le_pow_right (by decide) (by unfold oneExponent; omega))
      _ ≤ 10 ^ count * 10 ^ beyond := Nat.mul_le_mul_left _ (two_pow_le_ten_pow beyond)
      _ = 10 ^ (count + beyond) := (Nat.pow_add _ _ _).symm
  have hSmallCast : (coefficient : ℚ) * 2 ^ (oneExponent + 1) < 10 ^ (count + beyond) := by
    exact_mod_cast hSmall
  rw [zpow_neg, zpow_natCast, ← div_eq_mul_inv]
  exact isRounded_zero_of_lt negative hSmallCast

end Binary64

namespace DecimalTree

/-- The exact size of the number: its digits as a whole number, and a power of ten. -/
def size (tree : DecimalTree) : ℚ :=
  Nat.ofDigitChars 10 tree.digits 0 *
    10 ^ (tree.exponent.elim 0 ExponentTree.power - tree.mantissa.decimals.length)

/-- All digits of the exponent count, or the digits before it are too few to matter beside it. -/
def ExponentCounts (tree : DecimalTree) : Prop :=
  tree.exponent.elim 0 ExponentTree.size < 655360 ∨ tree.digits.length ≤ 65000

end DecimalTree

theorem ExponentTree.readPower_eq {exponent : ExponentTree} (h : exponent.size < 655360) :
    exponent.readPower = exponent.power := by
  rw [readPower, Decimal.signedExponent, Decimal.exponentSize_eq h]
  rfl

namespace DecimalTree

variable {tree : DecimalTree}

theorem digits_isDigit (tree : DecimalTree) : ∀ c ∈ tree.digits, '0' ≤ c ∧ c ≤ '9' := by
  intro c hc
  rcases List.mem_append.mp hc with hWhole | hDecimals
  · cases hMantissa : tree.mantissa with
    | fromDigit whole decimals =>
        rw [hMantissa] at hWhole
        exact whole.property.2 c hWhole
    | fromPoint decimals =>
        rw [hMantissa] at hWhole
        cases hWhole
  · cases hMantissa : tree.mantissa with
    | fromDigit whole decimals =>
        rw [hMantissa] at hDecimals
        cases decimals with
        | none => cases hDecimals
        | some decimals => exact decimals.property.2 c hDecimals
    | fromPoint decimals =>
        rw [hMantissa] at hDecimals
        exact decimals.property.2 c hDecimals

open Binary64 in
/-- As it is read, the number is correctly rounded. -/
theorem isRounded_as_read (tree : DecimalTree) :
    IsRounded tree.sign.negative
      (Nat.ofDigitChars 10 tree.digits 0 *
        10 ^ (tree.exponent.elim 0 ExponentTree.readPower - tree.mantissa.decimals.length))
      tree.decimal.toBinary64 := by
  rw [Decimal.toBinary64, Decimal.coefficient, Digits.decimal_eq, Decimal.scale]
  exact isRounded_ofScientific _ _ _

open Binary64 in
/-- An exponent beyond those that are read exactly decides the value, and it decides it as the
exponent that is read in its place. -/
theorem isRounded_of_large {exponent : ExponentTree} (hExponent : tree.exponent = some exponent)
    (hLarge : 655360 ≤ exponent.size) (hFew : tree.digits.length ≤ 65000) :
    IsRounded tree.sign.negative tree.size tree.decimal.toBinary64 := by
  have hRead := tree.isRounded_as_read
  have hLength : tree.digits.length = tree.mantissa.whole.length + tree.mantissa.decimals.length :=
    List.length_append
  have hLimit : 65536 ≤ Decimal.exponentSize exponent.digits.val :=
    Decimal.exponentLimit_le_exponentSize (Nat.le_trans (by decide) hLarge)
  rw [hExponent, Option.elim_some, ExponentTree.readPower, Decimal.signedExponent,
    Int.ofNat_eq_natCast] at hRead
  rw [size, hExponent, Option.elim_some, ExponentTree.power]
  by_cases hZero : Nat.ofDigitChars 10 tree.digits 0 = 0
  · rw [hZero, Nat.cast_zero, zero_mul] at hRead ⊢
    exact hRead
  · cases hSign : exponent.sign.negative with
    | false =>
        rw [hSign, if_neg Bool.false_ne_true] at hRead
        rw [if_neg Bool.false_ne_true,
          hRead.unique (isRounded_infinity_of_high _ hZero (by omega))]
        exact isRounded_infinity_of_high _ hZero (by omega)
    | true =>
        have hDigits := Digits.ofDigitChars_lt tree.digits_isDigit
        rw [hSign, if_pos rfl] at hRead
        rw [if_pos rfl, hRead.unique (isRounded_zero_of_low _ hDigits (by omega))]
        exact isRounded_zero_of_low _ hDigits (by omega)

open Binary64 in
theorem isRounded_toBinary64 (h : tree.ExponentCounts) :
    IsRounded tree.sign.negative tree.size tree.decimal.toBinary64 := by
  have hRead := tree.isRounded_as_read
  cases hExponent : tree.exponent with
  | none =>
      rw [hExponent] at hRead
      rw [size, hExponent]
      exact hRead
  | some exponent =>
      rcases Nat.lt_or_ge exponent.size 655360 with hSmall | hLarge
      · rw [hExponent, Option.elim_some, ExponentTree.readPower_eq hSmall] at hRead
        rw [size, hExponent]
        exact hRead
      · rw [ExponentCounts, hExponent, Option.elim_some] at h
        exact isRounded_of_large hExponent hLarge (h.resolve_left (Nat.not_lt.mpr hLarge))

theorem IsLongest.decimal_eq {text : List Char} {other : DecimalTree} (h : tree.IsLongest text)
    (hOther : other.IsLongest text) : tree.decimal = other.decimal := by
  rw [← Option.some_inj, ← Decimal.ofChars?_chars, h.chars_eq hOther, Decimal.ofChars?_chars]

end DecimalTree

namespace Binary64

theorem ofShown_of_scan? {text : String} {d : Decimal} {rest : List Char}
    (h : Leading.scan? (text.toList.dropWhile Text.isWhiteSpace) = some (d, rest)) :
    ofShown text = d.toBinary64 := by
  rw [ofShown, h]

theorem ofShown_of_isLongest {text : String} {tree : DecimalTree}
    (h : tree.IsLongest (text.toList.dropWhile Text.isWhiteSpace)) :
    ofShown text = tree.decimal.toBinary64 := by
  obtain ⟨d, rest, hScan⟩ := DecimalTree.exists_scan?_of_prefix h.1
  obtain ⟨other, rfl, hText⟩ := DecimalTree.exists_of_scan? hScan
  rw [ofShown_of_scan? hScan, h.decimal_eq (DecimalTree.isLongest_of_scan? hScan hText)]

theorem ofShown_of_no_prefix {text : String}
    (h : ¬∃ tree : DecimalTree, tree.chars <+: text.toList.dropWhile Text.isWhiteSpace) :
    ofShown text = zero := by
  have hScan : Leading.scan? (text.toList.dropWhile Text.isWhiteSpace) = none := by
    cases hRead : Leading.scan? (text.toList.dropWhile Text.isWhiteSpace) with
    | none => rfl
    | some read =>
        obtain ⟨tree, -, hText⟩ := DecimalTree.exists_of_scan? hRead
        exact absurd ⟨tree, read.2, hText⟩ h
  rw [ofShown, hScan]

end Binary64

theorem not_isWhiteSpace_of_isDigit {c : Char} (h : c.isDigit = true) :
    Text.isWhiteSpace c = false := by
  obtain ⟨hLow, hHigh⟩ := isDigit_iff.mp h
  have hLow : 0x30 ≤ c.toNat := hLow
  have hHigh : c.toNat ≤ 0x39 := hHigh
  simp only [Text.isWhiteSpace, Bool.or_eq_false_iff, Bool.and_eq_false_imp, decide_eq_true_eq,
    decide_eq_false_iff_not, not_le, beq_eq_false_iff_ne, ne_eq]
  omega

namespace Leading

theorem exists_scanFraction (decimals : Option (RangeRun '0' '9')) :
    ∃ rest, scanFraction (Numeral.fractionChars decimals.unattach) =
      (decimals.unattach.getD [], rest) ∧ scanExponent rest = (0, rest) := by
  cases decimals with
  | none => exact ⟨[], rfl, rfl⟩
  | some decimals =>
      by_cases hNone : decimals.val = []
      · exact ⟨['.'], by simp [Numeral.fractionChars, hNone, scanFraction], rfl⟩
      · refine ⟨[], ?_, rfl⟩
        have hScan := scanFraction_append ⟨decimals.val, hNone, decimals.property⟩ []
        simpa [Numeral.fractionChars] using hScan

/-- All of a number is read from its text but a point that no digit follows. -/
theorem exists_scan?_of_digits (negative : Bool) (whole : RangeWord '0' '9')
    (decimals : Option (RangeRun '0' '9')) :
    ∃ rest, scan? (Numeral.signChars negative ++
      (whole.val ++ Numeral.fractionChars decimals.unattach)) =
        some (⟨negative, whole.val, decimals.unattach.getD [], 0⟩, rest) := by
  obtain ⟨rest, hFraction, hExponent⟩ := exists_scanFraction decimals
  have hEnd : NotNext Char.isDigit (Numeral.fractionChars decimals.unattach) := by
    cases decimals with
    | none => exact notNext_nil _
    | some decimals => simp [NotNext, Numeral.fractionChars]
  refine ⟨rest, ?_⟩
  rw [scan?_of_parts (Decimal.scanSign_signChars negative whole _)
    (takeWhile_append_of_notNext isDigit_of_mem_word hEnd)
    ((congrArg _ (dropWhile_append_of_notNext isDigit_of_mem_word hEnd)).trans hFraction)
    (by simp [whole.property.1]), hExponent]

end Leading

namespace Binary64

/-- A number in front of which there is no white space. -/
theorem ofShown_of_digits {text : String} {negative : Bool} {whole : RangeWord '0' '9'}
    {decimals : Option (RangeRun '0' '9')}
    (hText : text.toList = Numeral.signChars negative ++
      (whole.val ++ Numeral.fractionChars decimals.unattach)) :
    ofShown text = ofScientific negative
      (Nat.ofDigitChars 10 (whole.val ++ decimals.unattach.getD []) 0)
      (-(decimals.unattach.getD []).length) := by
  obtain ⟨rest, hScan⟩ := Leading.exists_scan?_of_digits negative whole decimals
  obtain ⟨c, more, hWord, hDigit⟩ := exists_word_cons whole
  have hFirst : text.toList.dropWhile Text.isWhiteSpace = text.toList := by
    have hSpace := not_isWhiteSpace_of_isDigit hDigit
    cases negative with
    | true => rw [hText, Numeral.signChars, if_pos rfl]; rfl
    | false => simp [hText, Numeral.signChars, hWord, hSpace]
  rw [← hText, ← hFirst] at hScan
  rw [ofShown_of_scan? hScan, Decimal.toBinary64, Decimal.coefficient, Digits.decimal_eq,
    Decimal.scale, Int.zero_sub]

theorem ofShown_of_numeral {text : String} {tree : NumberTree} (h : tree.chars = text.toList) :
    ofShown text = tree.numeral.value := by
  obtain ⟨whole, hWhole⟩ := tree.exists_whole
  obtain ⟨decimals, hDecimals⟩ := tree.exists_fraction
  have hText : text.toList = Numeral.signChars tree.numeral.negative ++
      (whole.val ++ Numeral.fractionChars decimals.unattach) := by
    rw [← h, hWhole, hDecimals, ← Numeral.chars, NumberTree.numeral_chars]
  rw [ofShown_of_digits hText, hWhole, hDecimals, Numeral.value, Decimal.toBinary64,
    Decimal.coefficient, Digits.decimal_eq, Decimal.scale, Numeral.toDecimal, Int.zero_sub]

/-- The number that a text counts as. It is the conversion of the longest beginning, behind white
space, that the grammar derives, and this conversion rounds correctly; without any such beginning it
is zero. A number of formulas counts as the value that it has in a formula, and a zero keeps its
sign. -/
theorem ofShown_longest (text : String) :
    (∀ tree : DecimalTree, tree.IsLongest (text.toList.dropWhile Text.isWhiteSpace) →
      ofChars? tree.chars = some (ofShown text) ∧
      (tree.ExponentCounts → ∀ value,
        IsRounded tree.sign.negative tree.size value ↔ ofShown text = value)) ∧
    ((∃ tree : DecimalTree, tree.chars <+: text.toList.dropWhile Text.isWhiteSpace) →
      ∃ tree : DecimalTree, tree.IsLongest (text.toList.dropWhile Text.isWhiteSpace)) ∧
    ((¬∃ tree : DecimalTree, tree.chars <+: text.toList.dropWhile Text.isWhiteSpace) →
      ofShown text = zero) ∧
    ∀ n, Numeral.ofString? text = some n →
      ofShown text = n.value ∧ ofChars? text.toList = some n.value := by
  refine ⟨fun tree h => ?_, ?_, ofShown_of_no_prefix, fun n h => ?_⟩
  · rw [ofShown_of_isLongest h]
    refine ⟨ofChars?_chars tree, fun hCounts value => ⟨?_, ?_⟩⟩
    · exact (DecimalTree.isRounded_toBinary64 hCounts).unique
    · intro hValue
      exact hValue ▸ DecimalTree.isRounded_toBinary64 hCounts
  · intro hPrefix
    obtain ⟨tree, hTree⟩ := hPrefix
    exact DecimalTree.exists_isLongest hTree
  · obtain ⟨tree, hChars, rfl⟩ := Numeral.ofChars?_eq_some_iff.mp h
    refine ⟨ofShown_of_numeral hChars, ?_⟩
    rw [← hChars]
    exact ofChars?_numeral tree

/-- Behind two kinds of white space, minus a half is read up to an exponent without digits. The name
of a value that is not finite is read as zero, and a zero keeps its sign. -/
theorem ofShown_longest_on_parts :
    IsRounded true (1 / 2) (ofShown "\u2003 -.5e-x") ∧ ofShown "Inf" = zero ∧
      ofShown "-0." = finite true Magnitude.zero := by
  let tree : DecimalTree := ⟨.minus, .fromPoint ⟨['5'], by simp, by simp⟩, none⟩
  have hScan : Leading.scan? ("\u2003 -.5e-x".toList.dropWhile Text.isWhiteSpace) =
      some (tree.decimal, ['e', '-', 'x']) := rfl
  have hLongest : tree.IsLongest ("\u2003 -.5e-x".toList.dropWhile Text.isWhiteSpace) :=
    DecimalTree.isLongest_of_scan? hScan rfl
  have hCounts : tree.ExponentCounts := .inr (show 1 ≤ 65000 by omega)
  have hSize : tree.size = 1 / 2 := by
    have hDigits : Nat.ofDigitChars 10 tree.digits 0 = 5 := rfl
    have hPlaces : tree.mantissa.decimals.length = 1 := rfl
    rw [DecimalTree.size, hDigits, hPlaces]
    norm_num [tree]
  have hNone : ¬∃ tree : DecimalTree, tree.chars <+: "Inf".toList.dropWhile Text.isWhiteSpace := by
    intro h
    obtain ⟨tree, hTree⟩ := h
    obtain ⟨d, rest, hRead⟩ := DecimalTree.exists_scan?_of_prefix hTree
    cases hRead
  refine ⟨?_, (ofShown_longest "Inf").2.2.1 hNone, ?_⟩
  · rw [← hSize]
    exact (((ofShown_longest "\u2003 -.5e-x").1 tree hLongest).2 hCounts _).mpr rfl
  · exact ((ofShown_longest "-0.").2.2.2 ⟨true, ['0'], some []⟩ (by decide)).1

end Binary64

end PlainSheet
