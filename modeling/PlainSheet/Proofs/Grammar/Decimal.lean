import PlainSheet.Number.Leading
import PlainSheet.Number.Conversion
import PlainSheet.Proofs.Grammar.Token

/-! The numbers that operands are read from, by their derivation trees:

* `decimal ::= sign mantissa exponent?`
* `sign ::= [+-]?`
* `mantissa ::= [0-9]+ ('.' [0-9]+)? | '.' [0-9]+`
* `exponent ::= [eE] sign [0-9]+`

Main results: what is scanned is spelled by a tree, and no tree spells a longer beginning of the
text. -/

namespace PlainSheet

inductive SignTree where
  | absent
  | plus
  | minus

namespace SignTree

def chars : SignTree → List Char
  | absent => []
  | plus => ['+']
  | minus => ['-']

def negative : SignTree → Bool
  | minus => true
  | _ => false

end SignTree

inductive MantissaTree where
  -- [0-9]+ ('.' [0-9]+)?
  | fromDigit (whole : RangeWord '0' '9') (decimals : Option (RangeWord '0' '9'))
  -- '.' [0-9]+
  | fromPoint (decimals : RangeWord '0' '9')

namespace MantissaTree

def chars : MantissaTree → List Char
  | fromDigit whole decimals => whole.val ++ Numeral.fractionChars decimals.unattach
  | fromPoint decimals => '.' :: decimals.val

/-- The digits before the point. -/
def whole : MantissaTree → List Char
  | fromDigit whole _ => whole.val
  | fromPoint _ => []

/-- The digits behind the point. -/
def decimals : MantissaTree → List Char
  | fromDigit _ decimals => decimals.unattach.getD []
  | fromPoint decimals => decimals.val

end MantissaTree

structure ExponentTree where
  capital : Bool
  sign : SignTree
  digits : RangeWord '0' '9'

namespace ExponentTree

def letter (tree : ExponentTree) : Char := if tree.capital then 'E' else 'e'

def chars (tree : ExponentTree) : List Char :=
  tree.letter :: (tree.sign.chars ++ tree.digits.val)

/-- The size of the exponent, however large. -/
def size (tree : ExponentTree) : Nat := Nat.ofDigitChars 10 tree.digits.val 0

/-- The power of ten that the exponent stands for. -/
def power (tree : ExponentTree) : Int :=
  if tree.sign.negative then -(tree.size : Int) else tree.size

/-- The power of ten as it is read. -/
def readPower (tree : ExponentTree) : Int :=
  Decimal.signedExponent tree.sign.negative tree.digits.val

end ExponentTree

structure DecimalTree where
  sign : SignTree
  mantissa : MantissaTree
  exponent : Option ExponentTree

namespace DecimalTree

/-- The characters of an exponent, if there is one. -/
def exponentChars : Option ExponentTree → List Char
  | some exponent => exponent.chars
  | none => []

def chars (tree : DecimalTree) : List Char :=
  tree.sign.chars ++ (tree.mantissa.chars ++ exponentChars tree.exponent)

/-- All digits of the mantissa in order, without the point. -/
def digits (tree : DecimalTree) : List Char := tree.mantissa.whole ++ tree.mantissa.decimals

/-- The number by its parts, with its exponent as it is read. -/
def decimal (tree : DecimalTree) : Decimal where
  negative := tree.sign.negative
  whole := tree.mantissa.whole
  fraction := tree.mantissa.decimals
  exponent := tree.exponent.elim 0 ExponentTree.readPower

/-- A text starts with what a tree spells, and with nothing longer that a tree spells. -/
def IsLongest (text : List Char) (tree : DecimalTree) : Prop :=
  tree.chars <+: text ∧
    ∀ other : DecimalTree, other.chars <+: text → other.chars.length ≤ tree.chars.length

end DecimalTree

theorem isDigit_of_mem_word {word : RangeWord '0' '9'} : ∀ c ∈ word.val, c.isDigit = true :=
  fun c hc => isDigit_iff.mpr (word.property.2 c hc)

namespace SignTree

theorem scanSign_append (sign : SignTree) {text : List Char}
    (h : ∀ c ∈ text.head?, c ≠ '+' ∧ c ≠ '-') :
    Decimal.scanSign (sign.chars ++ text) = (sign.negative, text) := by
  cases sign with
  | plus => rfl
  | minus => rfl
  | absent =>
      cases text with
      | nil => rfl
      | cons c text =>
          have hSign := h c rfl
          simp [chars, Decimal.scanSign, hSign.1, hSign.2, negative]

theorem exists_of_scanSign (text : List Char) :
    ∃ sign : SignTree, sign.negative = (Decimal.scanSign text).1 ∧
      sign.chars ++ (Decimal.scanSign text).2 = text := by
  unfold Decimal.scanSign
  split
  · exact ⟨minus, rfl, rfl⟩
  · exact ⟨plus, rfl, rfl⟩
  · exact ⟨absent, rfl, rfl⟩

end SignTree

/-- No digit is a sign. -/
theorem ne_sign_of_isDigit {c : Char} (h : c.isDigit = true) : c ≠ '+' ∧ c ≠ '-' := by
  constructor
  · rintro rfl
    exact absurd h (by decide)
  · rintro rfl
    exact absurd h (by decide)

theorem exists_word_cons (word : RangeWord '0' '9') :
    ∃ c more, word.val = c :: more ∧ c.isDigit = true := by
  obtain ⟨c, more, hWord⟩ := List.exists_cons_of_ne_nil word.property.1
  have hMem : c ∈ word.val := by simp [hWord]
  exact ⟨c, more, hWord, isDigit_of_mem_word c hMem⟩

theorem takeWhile_word_append (word : RangeWord '0' '9') (text : List Char) :
    (word.val ++ text).takeWhile Char.isDigit = word.val ++ text.takeWhile Char.isDigit :=
  List.takeWhile_append_of_pos isDigit_of_mem_word

theorem dropWhile_word_append (word : RangeWord '0' '9') (text : List Char) :
    (word.val ++ text).dropWhile Char.isDigit = text.dropWhile Char.isDigit :=
  List.dropWhile_append_of_pos isDigit_of_mem_word

/-- The digits that a text starts with, if there are any, and what follows them. -/
theorem exists_word_append {text : List Char}
    (h : (text.takeWhile Char.isDigit).isEmpty = false) :
    ∃ word : RangeWord '0' '9', word.val = text.takeWhile Char.isDigit ∧
      word.val ++ text.dropWhile Char.isDigit = text := by
  have hWord : text.takeWhile Char.isDigit ≠ [] := by simpa using h
  exact ⟨⟨_, hWord, fun _ hc => isDigit_iff.mp (mem_takeWhile hc)⟩, rfl,
    List.takeWhile_append_dropWhile⟩

theorem isEmpty_word_append (word : RangeWord '0' '9') (text : List Char) :
    (word.val ++ text).isEmpty = false := by
  simp [word.property.1]

theorem ExponentTree.letter_eq (tree : ExponentTree) : tree.letter = 'e' ∨ tree.letter = 'E' := by
  unfold letter
  split
  · exact .inr rfl
  · exact .inl rfl

namespace Leading

/-- A point and digits are scanned up to where the digits end. -/
theorem scanFraction_append (word : RangeWord '0' '9') (text : List Char) :
    scanFraction ('.' :: (word.val ++ text)) =
      (word.val ++ text.takeWhile Char.isDigit, text.dropWhile Char.isDigit) := by
  simp only [scanFraction, takeWhile_word_append, dropWhile_word_append, isEmpty_word_append,
    Bool.false_eq_true, if_false]

/-- What is read as a fraction is a point and digits, or nothing. -/
theorem scanFraction_cases (text : List Char) :
    scanFraction text = ([], text) ∨
      ∃ (word : RangeWord '0' '9') (rest : List Char),
        scanFraction text = (word.val, rest) ∧ '.' :: (word.val ++ rest) = text := by
  unfold scanFraction
  split
  next rest =>
    split
    next => exact .inl rfl
    next hDigits =>
      obtain ⟨word, hWord, hRest⟩ := exists_word_append (eq_false_of_ne_true hDigits)
      exact .inr ⟨word, _, by rw [hWord], by rw [hRest]⟩
  next => exact .inl rfl

theorem length_scanFraction_le (text : List Char) : (scanFraction text).2.length ≤ text.length := by
  rcases scanFraction_cases text with hNone | ⟨word, rest, hWord, rfl⟩
  · simp [hNone]
  · rw [hWord]
    simp only [List.length_cons, List.length_append]
    omega

theorem exists_letter {c : Char} (h : c = 'e' ∨ c = 'E') :
    ∃ capital : Bool, (if capital then 'E' else 'e') = c := by
  rcases h with rfl | rfl
  · exact ⟨false, rfl⟩
  · exact ⟨true, rfl⟩

/-- An exponent is scanned up to where its digits end. -/
theorem scanExponent_append (tree : ExponentTree) (text : List Char) :
    scanExponent (tree.chars ++ text) =
      (Decimal.signedExponent tree.sign.negative (tree.digits.val ++ text.takeWhile Char.isDigit),
        text.dropWhile Char.isDigit) := by
  obtain ⟨c, more, hWord, hDigit⟩ := exists_word_cons tree.digits
  have hSign : ∀ c ∈ (tree.digits.val ++ text).head?, c ≠ '+' ∧ c ≠ '-' := by
    simpa [hWord] using ne_sign_of_isDigit hDigit
  simp only [ExponentTree.chars, List.cons_append, List.append_assoc, scanExponent,
    if_pos tree.letter_eq, SignTree.scanSign_append _ hSign, takeWhile_word_append,
    dropWhile_word_append, isEmpty_word_append, Bool.false_eq_true, if_false]

/-- What is read as an exponent is spelled by a tree, or nothing. -/
theorem scanExponent_cases (text : List Char) :
    scanExponent text = (0, text) ∨
      ∃ (tree : ExponentTree) (rest : List Char),
        scanExponent text = (tree.readPower, rest) ∧ tree.chars ++ rest = text := by
  unfold scanExponent
  split
  next c rest =>
    split
    next hLetter =>
      dsimp only
      split
      next => exact .inl rfl
      next hDigits =>
        obtain ⟨sign, hNegative, hSign⟩ := SignTree.exists_of_scanSign rest
        obtain ⟨word, hWord, hRest⟩ := exists_word_append (eq_false_of_ne_true hDigits)
        obtain ⟨capital, hCapital⟩ := exists_letter hLetter
        refine .inr ⟨⟨capital, sign, word⟩,
          (Decimal.scanSign rest).2.dropWhile Char.isDigit, ?_, ?_⟩
        · rw [ExponentTree.readPower, hNegative, hWord]
        · rw [ExponentTree.chars, ExponentTree.letter, hCapital, List.cons_append,
            List.append_assoc, hRest, hSign]
    next => exact .inl rfl
  next => exact .inl rfl

theorem length_scanExponent_le (text : List Char) : (scanExponent text).2.length ≤ text.length := by
  rcases scanExponent_cases text with hNone | ⟨tree, rest, hTree, rfl⟩
  · simp [hNone]
  · rw [hTree]
    simp only [List.length_append]
    omega

/-- A mantissa is scanned if there is a digit on either side of its point. -/
theorem scan?_of_parts {text afterSign whole fraction afterFraction : List Char} {negative : Bool}
    (hSign : Decimal.scanSign text = (negative, afterSign))
    (hWhole : afterSign.takeWhile Char.isDigit = whole)
    (hFraction : scanFraction (afterSign.dropWhile Char.isDigit) = (fraction, afterFraction))
    (hDigits : (whole.isEmpty && fraction.isEmpty) = false) :
    scan? text = some (⟨negative, whole, fraction, (scanExponent afterFraction).1⟩,
      (scanExponent afterFraction).2) := by
  simp only [scan?, hSign, hWhole, hFraction, hDigits, Bool.false_eq_true, if_false]

end Leading

namespace DecimalTree

/-- An exponent ends the digits before it. -/
theorem dropWhile_exponentChars (exponent : ExponentTree) (rest : List Char) :
    (exponent.chars ++ rest).dropWhile Char.isDigit = exponent.chars ++ rest := by
  have hLetter : exponent.letter.isDigit = false := by
    rcases exponent.letter_eq with h | h <;> rw [h] <;> rfl
  simp [ExponentTree.chars, hLetter]

theorem scanFraction_exponentChars (exponent : ExponentTree) (rest : List Char) :
    Leading.scanFraction (exponent.chars ++ rest) = ([], exponent.chars ++ rest) := by
  rcases Leading.scanFraction_cases (exponent.chars ++ rest) with hNone | ⟨word, more, -, hPoint⟩
  · exact hNone
  · simp only [ExponentTree.chars, List.cons_append, List.cons.injEq] at hPoint
    rcases exponent.letter_eq with hLetter | hLetter
    · exact absurd (hPoint.1.trans hLetter) (by decide)
    · exact absurd (hPoint.1.trans hLetter) (by decide)

/-- Behind a mantissa, the exponent that a tree spells is read, or there is no more of it. -/
theorem length_scanExponent_le (exponent : Option ExponentTree) (rest : List Char) :
    (Leading.scanExponent ((exponentChars exponent ++ rest).dropWhile Char.isDigit)).2.length ≤
      rest.length := by
  cases exponent with
  | none =>
      exact Nat.le_trans (Leading.length_scanExponent_le _)
        (List.dropWhile_sublist Char.isDigit).length_le
  | some exponent =>
      rw [exponentChars, dropWhile_exponentChars, Leading.scanExponent_append]
      exact (List.dropWhile_sublist Char.isDigit).length_le

/-- The same where a fraction may come between, which no exponent starts with. -/
theorem length_scanFraction_scanExponent_le (exponent : Option ExponentTree) (rest : List Char) :
    (Leading.scanExponent (Leading.scanFraction
      ((exponentChars exponent ++ rest).dropWhile Char.isDigit)).2).2.length ≤ rest.length := by
  cases exponent with
  | none =>
      calc _ ≤ (Leading.scanFraction (rest.dropWhile Char.isDigit)).2.length :=
            Leading.length_scanExponent_le _
        _ ≤ (rest.dropWhile Char.isDigit).length := Leading.length_scanFraction_le _
        _ ≤ rest.length := (List.dropWhile_sublist Char.isDigit).length_le
  | some exponent =>
      have hLength := length_scanExponent_le (some exponent) rest
      rw [exponentChars, dropWhile_exponentChars] at hLength ⊢
      rw [scanFraction_exponentChars]
      exact hLength

/-- The mantissa decides how a text goes on behind its sign. -/
theorem scanSign_chars (tree : DecimalTree) (rest : List Char) :
    Decimal.scanSign (tree.chars ++ rest) =
      (tree.sign.negative, tree.mantissa.chars ++ (exponentChars tree.exponent ++ rest)) := by
  rw [chars, List.append_assoc, List.append_assoc]
  apply SignTree.scanSign_append
  cases tree.mantissa with
  | fromPoint decimals => simp [MantissaTree.chars]
  | fromDigit whole decimals =>
      obtain ⟨c, more, hWord, hDigit⟩ := exists_word_cons whole
      simpa [MantissaTree.chars, hWord] using ne_sign_of_isDigit hDigit

/-- What a tree spells is scanned, and perhaps more. -/
theorem exists_scan?_append (tree : DecimalTree) (rest : List Char) :
    ∃ d after, Leading.scan? (tree.chars ++ rest) = some (d, after) ∧
      after.length ≤ rest.length := by
  have hSign := tree.scanSign_chars rest
  have hExponent := length_scanExponent_le tree.exponent rest
  have hFraction := length_scanFraction_scanExponent_le tree.exponent rest
  generalize exponentChars tree.exponent ++ rest = following at hSign hExponent hFraction
  cases hMantissa : tree.mantissa with
  | fromPoint decimals =>
      rw [hMantissa, MantissaTree.chars, List.cons_append] at hSign
      have hDecimals : Leading.scanFraction
          (('.' :: (decimals.val ++ following)).dropWhile Char.isDigit) =
            (decimals.val ++ following.takeWhile Char.isDigit, following.dropWhile Char.isDigit) :=
        Leading.scanFraction_append decimals following
      refine ⟨_, _, Leading.scan?_of_parts hSign rfl hDecimals ?_, hExponent⟩
      rw [isEmpty_word_append, Bool.and_false]
  | fromDigit whole decimals =>
      rw [hMantissa, MantissaTree.chars, List.append_assoc] at hSign
      have hWhole := takeWhile_word_append whole
        (Numeral.fractionChars decimals.unattach ++ following)
      have hRest := dropWhile_word_append whole
        (Numeral.fractionChars decimals.unattach ++ following)
      cases decimals with
      | none =>
          refine ⟨_, _, Leading.scan?_of_parts hSign hWhole (congrArg _ hRest) ?_, hFraction⟩
          rw [isEmpty_word_append, Bool.false_and]
      | some decimals =>
          have hDecimals := Leading.scanFraction_append decimals following
          refine ⟨_, _, Leading.scan?_of_parts hSign hWhole
            ((congrArg _ hRest).trans hDecimals) ?_, hExponent⟩
          rw [isEmpty_word_append, Bool.false_and]

/-- What is scanned of a mantissa is spelled by a tree. -/
theorem exists_mantissa {text : List Char}
    (h : ((text.takeWhile Char.isDigit).isEmpty &&
      (Leading.scanFraction (text.dropWhile Char.isDigit)).1.isEmpty) = false) :
    ∃ mantissa : MantissaTree, mantissa.whole = text.takeWhile Char.isDigit ∧
      mantissa.decimals = (Leading.scanFraction (text.dropWhile Char.isDigit)).1 ∧
      mantissa.chars ++ (Leading.scanFraction (text.dropWhile Char.isDigit)).2 = text := by
  by_cases hWhole : (text.takeWhile Char.isDigit).isEmpty = true
  · have hRest : text.dropWhile Char.isDigit = text := by
      have hAppend := List.takeWhile_append_dropWhile (p := Char.isDigit) (l := text)
      rwa [List.isEmpty_iff.mp hWhole, List.nil_append] at hAppend
    rw [hWhole, Bool.true_and, hRest] at h
    rw [List.isEmpty_iff.mp hWhole, hRest]
    rcases Leading.scanFraction_cases text with hNone | ⟨decimals, rest, hDecimals, hText⟩
    · rw [hNone] at h
      cases h
    · rw [hDecimals]
      exact ⟨.fromPoint decimals, rfl, rfl, hText⟩
  · obtain ⟨whole, hWord, hText⟩ := exists_word_append (eq_false_of_ne_true hWhole)
    rcases Leading.scanFraction_cases (text.dropWhile Char.isDigit) with
      hNone | ⟨decimals, rest, hDecimals, hRest⟩
    · rw [hNone]
      refine ⟨.fromDigit whole none, hWord, rfl, ?_⟩
      simpa [MantissaTree.chars, Numeral.fractionChars] using hText
    · rw [hDecimals]
      refine ⟨.fromDigit whole (some decimals), hWord, rfl, ?_⟩
      rw [← hRest] at hText
      simpa [MantissaTree.chars, Numeral.fractionChars] using hText

theorem exists_exponent (text : List Char) :
    ∃ exponent : Option ExponentTree,
      exponent.elim 0 ExponentTree.readPower = (Leading.scanExponent text).1 ∧
      exponentChars exponent ++ (Leading.scanExponent text).2 = text := by
  rcases Leading.scanExponent_cases text with hNone | ⟨exponent, rest, hExponent, hText⟩
  · rw [hNone]
    exact ⟨none, rfl, rfl⟩
  · rw [hExponent]
    exact ⟨some exponent, rfl, hText⟩

/-- What is scanned is spelled by a tree. -/
theorem exists_of_scan? {text rest : List Char} {d : Decimal}
    (h : Leading.scan? text = some (d, rest)) :
    ∃ tree : DecimalTree, tree.decimal = d ∧ tree.chars ++ rest = text := by
  obtain ⟨sign, hNegative, hSign⟩ := SignTree.exists_of_scanSign text
  unfold Leading.scan? at h
  dsimp only at h
  split at h
  · cases h
  · next hDigits =>
    obtain ⟨mantissa, hWhole, hDecimals, hMantissa⟩ := exists_mantissa (eq_false_of_ne_true hDigits)
    obtain ⟨exponent, hPower, hExponent⟩ := exists_exponent
      (Leading.scanFraction ((Decimal.scanSign text).2.dropWhile Char.isDigit)).2
    cases h
    refine ⟨⟨sign, mantissa, exponent⟩, ?_, ?_⟩
    · rw [decimal, hNegative, hWhole, hDecimals, hPower]
    · rw [chars, List.append_assoc, List.append_assoc, hExponent, hMantissa, hSign]

/-- What is scanned is the longest beginning of a text that a tree spells. -/
theorem isLongest_of_scan? {text rest : List Char} {d : Decimal} {tree : DecimalTree}
    (h : Leading.scan? text = some (d, rest)) (hTree : tree.chars ++ rest = text) :
    tree.IsLongest text := by
  refine ⟨⟨rest, hTree⟩, fun other hOther => ?_⟩
  obtain ⟨following, hFollowing⟩ := hOther
  obtain ⟨read, after, hRead, hAfter⟩ := other.exists_scan?_append following
  rw [hFollowing, h, Option.some_inj, Prod.mk.injEq] at hRead
  obtain ⟨-, rfl⟩ := hRead
  have hLength := congrArg List.length (hTree.trans hFollowing.symm)
  simp only [List.length_append] at hLength
  omega

theorem IsLongest.chars_eq {text : List Char} {tree other : DecimalTree} (h : tree.IsLongest text)
    (hOther : other.IsLongest text) : tree.chars = other.chars :=
  (List.prefix_of_prefix_length_le h.1 hOther.1 (hOther.2 tree h.1)).eq_of_length_le
    (h.2 other hOther.1)

theorem exists_scan?_of_prefix {text : List Char} {tree : DecimalTree} (h : tree.chars <+: text) :
    ∃ d rest, Leading.scan? text = some (d, rest) := by
  obtain ⟨following, rfl⟩ := h
  obtain ⟨d, rest, hScan, -⟩ := tree.exists_scan?_append following
  exact ⟨d, rest, hScan⟩

/-- A text that starts with what a tree spells has a longest such beginning. -/
theorem exists_isLongest {text : List Char} {tree : DecimalTree} (h : tree.chars <+: text) :
    ∃ longest : DecimalTree, longest.IsLongest text := by
  obtain ⟨d, rest, hScan⟩ := exists_scan?_of_prefix h
  obtain ⟨longest, -, hText⟩ := exists_of_scan? hScan
  exact ⟨longest, isLongest_of_scan? hScan hText⟩

end DecimalTree

end PlainSheet
