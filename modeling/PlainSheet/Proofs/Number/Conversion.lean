import PlainSheet.Number.Conversion
import PlainSheet.Proofs.Grammar.Decimal

/-! Which whole texts are converted to values. Main results: what operands are read from is, and so
are the numbers of formulas. -/

namespace PlainSheet

namespace Decimal

theorem exponentOfChars?_exponentChars (exponent : Option ExponentTree) :
    exponentOfChars? (DecimalTree.exponentChars exponent) =
      some (exponent.elim 0 ExponentTree.readPower) := by
  cases exponent with
  | none => rfl
  | some exponent =>
      obtain ⟨c, more, hWord, hDigit⟩ := exists_word_cons exponent.digits
      have hSign : ∀ c ∈ exponent.digits.val.head?, c ≠ '+' ∧ c ≠ '-' := by
        simpa [hWord] using ne_sign_of_isDigit hDigit
      have hDigits :
          (!exponent.digits.val.isEmpty && exponent.digits.val.all Char.isDigit) = true := by
        simp [exponent.digits.property.1, List.all_eq_true.mpr isDigit_of_mem_word]
      simp only [DecimalTree.exponentChars, ExponentTree.chars, exponentOfChars?,
        if_pos exponent.letter_eq, SignTree.scanSign_append _ hSign, hDigits, if_true]
      rfl

/-- A mantissa is taken whole if it has a digit. -/
theorem ofChars?_of_parts {text afterSign whole afterDecimals : List Char}
    {decimals : Option (List Char)} {negative : Bool}
    (hSign : scanSign text = (negative, afterSign))
    (hWhole : afterSign.takeWhile Char.isDigit = whole)
    (hDecimals : Numeral.scanFraction (afterSign.dropWhile Char.isDigit) =
      (decimals, afterDecimals))
    (hDigits : (whole.isEmpty && (decimals.getD []).isEmpty) = false) :
    ofChars? text = (exponentOfChars? afterDecimals).map fun exponent =>
      ⟨negative, whole, decimals.getD [], exponent⟩ := by
  simp only [ofChars?, hSign, hWhole, hDecimals, hDigits, Bool.false_eq_true, if_false]

/-- No exponent goes on with the digits or the point before it. -/
theorem notNext_exponentChars (exponent : Option ExponentTree) :
    NotNext continuesNumber (DecimalTree.exponentChars exponent) := by
  cases exponent with
  | none => exact notNext_nil _
  | some exponent =>
      intro c hc
      obtain rfl : exponent.letter = c := Option.some_inj.mp hc
      rcases exponent.letter_eq with hLetter | hLetter <;> rw [hLetter] <;> rfl

/-- Digits with a fraction are taken whole, up to an exponent. -/
theorem ofChars?_of_digits {text whole : List Char} {fraction : Option (List Char)}
    {exponent : Option ExponentTree} {negative : Bool}
    (hSign : scanSign text =
      (negative, whole ++ (Numeral.fractionChars fraction ++ DecimalTree.exponentChars exponent)))
    (hWhole : ∀ c ∈ whole, c.isDigit = true)
    (hFraction : ∀ digits ∈ fraction, ∀ c ∈ digits, c.isDigit = true)
    (hDigits : (whole.isEmpty && (fraction.getD []).isEmpty) = false) :
    ofChars? text = some ⟨negative, whole, fraction.getD [],
      exponent.elim 0 ExponentTree.readPower⟩ := by
  have hEnd : NotNext Char.isDigit
      (Numeral.fractionChars fraction ++ DecimalTree.exponentChars exponent) := by
    cases fraction with
    | none => exact (notNext_exponentChars exponent).isDigit
    | some digits => simp [NotNext, Numeral.fractionChars]
  have hScan := Numeral.scanFraction_append hFraction (notNext_exponentChars exponent)
  rw [ofChars?_of_parts hSign (takeWhile_append_of_notNext hWhole hEnd)
    ((congrArg _ (dropWhile_append_of_notNext hWhole hEnd)).trans hScan) hDigits,
    exponentOfChars?_exponentChars]
  rfl

/-- What operands are read from is taken whole. -/
theorem ofChars?_chars (tree : DecimalTree) : ofChars? tree.chars = some tree.decimal := by
  have hSign := tree.scanSign_chars []
  rw [List.append_nil, List.append_nil] at hSign
  unfold DecimalTree.decimal
  cases hMantissa : tree.mantissa with
  | fromDigit whole decimals =>
      rw [hMantissa, MantissaTree.chars, List.append_assoc] at hSign
      apply ofChars?_of_digits hSign isDigit_of_mem_word
      · cases decimals with
        | none => simp
        | some decimals =>
            have hWord : ∀ c ∈ decimals.val, c.isDigit = true := isDigit_of_mem_word
            simpa using hWord
      · simp [whole.property.1]
  | fromPoint decimals =>
      have hWord : ∀ c ∈ decimals.val, c.isDigit = true := isDigit_of_mem_word
      have hPoint : scanSign tree.chars = (tree.sign.negative,
          [] ++ (Numeral.fractionChars (some decimals.val) ++
            DecimalTree.exponentChars tree.exponent)) := by
        rw [hSign, hMantissa]
        rfl
      apply ofChars?_of_digits hPoint (by simp)
      · simpa using hWord
      · simp [decimals.property.1]

end Decimal

namespace NumberTree

theorem exists_whole (tree : NumberTree) :
    ∃ whole : RangeWord '0' '9', whole.val = tree.numeral.whole := by
  cases tree with
  | zero => exact ⟨⟨['0'], by simp, by simp⟩, rfl⟩
  | belowOne minus decimals => exact ⟨⟨['0'], by simp, by simp⟩, rfl⟩
  | fromOne minus leading digits decimals =>
      have hLeading : '0' ≤ leading.val ∧ leading.val ≤ '9' :=
        ⟨Char.le_trans (by decide) leading.property.1, leading.property.2⟩
      exact ⟨⟨leading.val :: digits.val, List.cons_ne_nil _ _,
        List.forall_mem_cons.mpr ⟨hLeading, digits.property⟩⟩, rfl⟩

theorem exists_fraction (tree : NumberTree) :
    ∃ decimals : Option (RangeRun '0' '9'), decimals.unattach = tree.numeral.fraction := by
  cases tree with
  | zero => exact ⟨none, rfl⟩
  | belowOne minus decimals => exact ⟨some decimals, rfl⟩
  | fromOne minus leading digits decimals => exact ⟨decimals, rfl⟩

end NumberTree

namespace Decimal

/-- A number has at most a minus sign before its first digit. -/
theorem scanSign_signChars (negative : Bool) (whole : RangeWord '0' '9') (rest : List Char) :
    scanSign (Numeral.signChars negative ++ (whole.val ++ rest)) =
      (negative, whole.val ++ rest) := by
  obtain ⟨c, more, hWord, hDigit⟩ := exists_word_cons whole
  cases negative with
  | true => rfl
  | false => simp [Numeral.signChars, scanSign, hWord, ne_sign_of_isDigit hDigit]

/-- The numbers of formulas are taken whole. -/
theorem ofChars?_numeral (tree : NumberTree) :
    ofChars? tree.chars = some tree.numeral.toDecimal := by
  obtain ⟨whole, hWhole⟩ := tree.exists_whole
  obtain ⟨decimals, hDecimals⟩ := tree.exists_fraction
  have hSign : scanSign tree.chars = (tree.numeral.negative, whole.val ++
      (Numeral.fractionChars decimals.unattach ++ DecimalTree.exponentChars none)) := by
    rw [DecimalTree.exponentChars, List.append_nil, ← scanSign_signChars, hWhole, hDecimals,
      ← Numeral.chars, NumberTree.numeral_chars]
  rw [ofChars?_of_digits hSign isDigit_of_mem_word (isDigit_of_mem_unattach decimals)
    (by simp [whole.property.1]), hWhole, hDecimals]
  rfl

end Decimal

namespace Binary64

theorem ofChars?_chars (tree : DecimalTree) :
    ofChars? tree.chars = some tree.decimal.toBinary64 := by
  rw [ofChars?, Decimal.ofChars?_chars]

theorem ofChars?_numeral (tree : NumberTree) :
    ofChars? tree.chars = some tree.numeral.value := by
  rw [ofChars?, Decimal.ofChars?_numeral]
  rfl

end Binary64

end PlainSheet
