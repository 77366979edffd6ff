import Mathlib.Data.Option.Basic
import PlainSheet.Proofs.Address.Saturation
import PlainSheet.Proofs.Grammar.Tree

/-! Scanning numbers and cells. A scanner reads off what some derivation spells, and it
reads a derived text back whole wherever the text ends: where no digit or point follows. -/

namespace PlainSheet

/-- No character of a class comes next. -/
def NotNext (member : Char → Bool) (rest : List Char) : Prop :=
  ∀ c ∈ rest.head?, member c = false

theorem notNext_nil (member : Char → Bool) : NotNext member [] := by simp [NotNext]

/-- A run is taken whole up to a character outside of its class. -/
theorem takeWhile_append_of_notNext {member : Char → Bool} {run rest : List Char}
    (hRun : ∀ c ∈ run, member c = true) (hRest : NotNext member rest) :
    (run ++ rest).takeWhile member = run := by
  rw [List.takeWhile_append_of_pos hRun]
  cases rest with
  | nil => simp
  | cons c rest => simp [hRest c rfl]

theorem dropWhile_append_of_notNext {member : Char → Bool} {run rest : List Char}
    (hRun : ∀ c ∈ run, member c = true) (hRest : NotNext member rest) :
    (run ++ rest).dropWhile member = rest := by
  rw [List.dropWhile_append_of_pos hRun]
  cases rest with
  | nil => rfl
  | cons c rest => simp [hRest c rfl]

theorem mem_takeWhile {member : Char → Bool} {text : List Char} {c : Char}
    (h : c ∈ text.takeWhile member) : member c = true :=
  List.all_eq_true.mp List.all_takeWhile c h

theorem isUpper_iff {c : Char} : c.isUpper = true ↔ 'A' ≤ c ∧ c ≤ 'Z' := by
  show decide ('A' ≤ c ∧ c ≤ 'Z') = true ↔ _
  exact decide_eq_true_iff

theorem isDigit_iff {c : Char} : c.isDigit = true ↔ '0' ≤ c ∧ c ≤ '9' := by
  simp [Char.isDigit, Char.le_def]

theorem isNonzeroDigit_iff {c : Char} : Text.isNonzeroDigit c = true ↔ '1' ≤ c ∧ c ≤ '9' := by
  simp only [Text.isNonzeroDigit, Bool.and_eq_true, isDigit_iff, bne_iff_ne, ne_eq]
  constructor
  · intro h
    obtain ⟨⟨hLow, hHigh⟩, hZero⟩ := h
    refine ⟨?_, hHigh⟩
    have hNat : c.toNat ≠ '0'.toNat := fun h => hZero (Char.toNat_inj.mp h)
    have hLow : '0'.toNat ≤ c.toNat := hLow
    show '1'.toNat ≤ c.toNat
    have hOne : '1'.toNat = '0'.toNat + 1 := rfl
    omega
  · intro h
    obtain ⟨hLow, hHigh⟩ := h
    refine ⟨⟨Char.le_trans (by decide) hLow, hHigh⟩, ?_⟩
    rintro rfl
    exact absurd hLow (by decide)

/-- The run of digits that a text starts with. -/
def digitsNext (text : List Char) : RangeRun '0' '9' :=
  ⟨text.takeWhile Char.isDigit, fun _ hc => isDigit_iff.mp (mem_takeWhile hc)⟩

/-- Whether a character can go on with a number that ends before it. -/
def continuesNumber (c : Char) : Bool := c.isDigit || c == '.'

theorem NotNext.isDigit {rest : List Char} (hRest : NotNext continuesNumber rest) :
    NotNext Char.isDigit rest := by
  intro c hc
  have hNot := hRest c hc
  simp only [continuesNumber, Bool.or_eq_false_iff] at hNot
  exact hNot.1

theorem isDigit_of_mem {run : RangeRun '0' '9'} : ∀ c ∈ run.val, c.isDigit = true :=
  fun c hc => isDigit_iff.mpr (run.property c hc)

theorem isDigit_of_mem_unattach (decimals : Option (RangeRun '0' '9')) :
    ∀ digits ∈ decimals.unattach, ∀ c ∈ digits, c.isDigit = true := by
  cases decimals with
  | none => simp
  | some decimals =>
      have hRun : ∀ c ∈ decimals.val, c.isDigit = true := isDigit_of_mem
      simpa using hRun

/-- The first digit tells numbers from one on from those below. -/
theorem leading_ne_zero (leading : RangeChar '1' '9') : leading.val ≠ '0' := by
  intro hZero
  exact absurd (hZero ▸ leading.property.1) (by decide)

/-- A fraction is read whole where no digit and no point follows. -/
theorem Numeral.scanFraction_append {fraction : Option (List Char)} {rest : List Char}
    (hDigits : ∀ digits ∈ fraction, ∀ c ∈ digits, c.isDigit = true)
    (hRest : NotNext continuesNumber rest) :
    scanFraction (fractionChars fraction ++ rest) = (fraction, rest) := by
  cases fraction with
  | some digits =>
      simp [fractionChars, scanFraction,
        takeWhile_append_of_notNext (hDigits digits rfl) hRest.isDigit,
        dropWhile_append_of_notNext (hDigits digits rfl) hRest.isDigit]
  | none =>
      cases rest with
      | nil => rfl
      | cons c rest =>
          have hPoint : c ≠ '.' := by
            rintro rfl
            exact absurd (hRest '.' rfl) (by decide)
          simp [fractionChars, scanFraction, hPoint]

namespace NumberTree

@[simp] theorem numeral_chars (tree : NumberTree) : tree.numeral.chars = tree.chars := by
  cases tree with
  | zero => rfl
  | belowOne minus decimals => rfl
  | fromOne minus leading digits decimals => rfl

/-- Two derivations of numbers that spell the same numeral are the same. -/
theorem numeral_injective : Function.Injective numeral := by
  intro first second h
  cases first with
  | zero =>
      cases second with
      | zero => rfl
      | belowOne => simp [numeral] at h
      | fromOne _ leading => simp [numeral, (leading_ne_zero leading).symm] at h
  | belowOne minus decimals =>
      cases second with
      | zero => simp [numeral] at h
      | belowOne =>
          simp only [numeral, Numeral.mk.injEq, Option.some.injEq, true_and] at h
          rw [h.1, Subtype.ext h.2]
      | fromOne _ leading => simp [numeral, (leading_ne_zero leading).symm] at h
  | fromOne minus leading digits decimals =>
      cases second with
      | zero => simp [numeral, leading_ne_zero leading] at h
      | belowOne => simp [numeral, leading_ne_zero leading] at h
      | fromOne =>
          simp only [numeral, Numeral.mk.injEq, List.cons.injEq] at h
          obtain ⟨hMinus, ⟨hLeading, hDigits⟩, hDecimals⟩ := h
          rw [hMinus, Subtype.ext hLeading, Subtype.ext hDigits,
            Option.map_injective (fun _ _ => Subtype.ext) hDecimals]

/-- The value of the numeral that is spelled is the value of the literal. -/
theorem numeral_value (tree : NumberTree) : tree.numeral.value = tree.value := by
  rw [Numeral.value, Decimal.toBinary64, Decimal.coefficient, Digits.decimal_eq, Decimal.scale]
  cases tree with
  | zero => rfl
  | belowOne sign decimals => simp [numeral, value, Numeral.toDecimal, digits, places, minus]
  | fromOne sign leading run decimals =>
      simp [numeral, value, Numeral.toDecimal, digits, places, minus]

/-- A sign is scanned before whatever starts with no other sign. -/
theorem scan?_signChars (minus : Bool) {text : List Char} (hText : '-' ∉ text.head?) :
    Numeral.scan? (Numeral.signChars minus ++ text) = Numeral.scanUnsigned? minus text := by
  cases minus with
  | true => rfl
  | false =>
      cases text with
      | nil => rfl
      | cons c text =>
          have hMinus : c ≠ '-' := by simpa [eq_comm] using hText
          simp [Numeral.signChars, Numeral.scan?, hMinus]

theorem scanFraction_append (decimals : Option (RangeRun '0' '9')) {rest : List Char}
    (hRest : NotNext continuesNumber rest) :
    Numeral.scanFraction (Numeral.fractionChars decimals.unattach ++ rest) =
      (decimals.unattach, rest) :=
  Numeral.scanFraction_append (isDigit_of_mem_unattach decimals) hRest

/-- A derived number is scanned whole where no digit and no point follows. -/
theorem scan?_append (tree : NumberTree) {rest : List Char}
    (hRest : NotNext continuesNumber rest) :
    Numeral.scan? (tree.chars ++ rest) = some (tree.numeral, rest) := by
  cases tree with
  | zero =>
      have hFraction := scanFraction_append none hRest
      simp only [Option.unattach_none, Numeral.fractionChars, List.nil_append] at hFraction
      simp [chars, numeral, Numeral.scan?, Numeral.scanUnsigned?, hFraction]
  | belowOne minus decimals =>
      have hFraction := scanFraction_append (some decimals) hRest
      simp only [Option.unattach_some, Numeral.fractionChars, List.cons_append] at hFraction
      rw [chars, List.append_assoc, scan?_signChars minus (by simp)]
      simp [numeral, Numeral.scanUnsigned?, hFraction]
  | fromOne minus leading digits decimals =>
      have hMinus : leading.val ≠ '-' := fun h => absurd (h ▸ leading.property.1) (by decide)
      have hEnd : NotNext Char.isDigit (Numeral.fractionChars decimals.unattach ++ rest) := by
        cases decimals with
        | none => exact hRest.isDigit
        | some decimals => simp [NotNext, Numeral.fractionChars]
      rw [chars, List.append_assoc, scan?_signChars minus (by simpa [eq_comm] using hMinus)]
      simp [numeral, Numeral.scanUnsigned?, leading_ne_zero leading,
        isNonzeroDigit_iff.mpr leading.property, scanFraction_append decimals hRest,
        takeWhile_append_of_notNext isDigit_of_mem hEnd,
        dropWhile_append_of_notNext isDigit_of_mem hEnd]

/-- Whatever fraction is scanned has decimals that derive it. -/
theorem exists_decimals {text rest : List Char} {fraction : Option (List Char)}
    (h : Numeral.scanFraction text = (fraction, rest)) :
    ∃ decimals : Option (RangeRun '0' '9'), decimals.unattach = fraction := by
  unfold Numeral.scanFraction at h
  split at h
  next more =>
    cases h
    exact ⟨some (digitsNext more), rfl⟩
  next =>
    cases h
    exact ⟨none, rfl⟩

theorem exists_of_scanUnsigned? {minus : Bool} {text rest : List Char} {n : Numeral}
    (h : Numeral.scanUnsigned? minus text = some (n, rest)) :
    ∃ tree : NumberTree, tree.numeral = n := by
  unfold Numeral.scanUnsigned? at h
  split at h
  next => cases h
  next c more =>
    split at h
    next hZero =>
      subst hZero
      split at h
      next middle hFraction =>
        split at h
        next => cases h
        next hMinus =>
          cases h
          exact ⟨zero, by simp [numeral, hMinus]⟩
      next digits middle hFraction =>
        cases h
        obtain ⟨decimals, hDecimals⟩ := exists_decimals hFraction
        cases decimals with
        | none => cases hDecimals
        | some decimals =>
            cases hDecimals
            exact ⟨belowOne minus decimals, rfl⟩
    next =>
      split at h
      next hLeading =>
        split at h
        next fraction middle hFraction =>
          cases h
          obtain ⟨decimals, rfl⟩ := exists_decimals hFraction
          exact ⟨fromOne minus ⟨c, isNonzeroDigit_iff.mp hLeading⟩ (digitsNext more) decimals, rfl⟩
      next => cases h

/-- What is scanned is spelled by a derivation, which ends where the scanner does. -/
theorem exists_of_scan? {text rest : List Char} {n : Numeral}
    (h : Numeral.scan? text = some (n, rest)) :
    ∃ tree : NumberTree, tree.numeral = n ∧ tree.chars ++ rest = text := by
  have hTree : ∃ tree : NumberTree, tree.numeral = n := by
    unfold Numeral.scan? at h
    split at h
    next => exact exists_of_scanUnsigned? h
    next => exact exists_of_scanUnsigned? h
  obtain ⟨tree, rfl⟩ := hTree
  exact ⟨tree, rfl, by rw [Numeral.eq_append_of_scan? h, numeral_chars]⟩

end NumberTree

namespace CellTree

/-- Two derivations of cells that spell the same reference are the same. -/
theorem reference_injective : Function.Injective reference := by
  intro first second h
  cases first
  cases second
  simp only [reference, Reference.mk.injEq, List.cons.injEq] at h
  obtain ⟨hLetters, hLeading, hDigits⟩ := h
  simp only [mk.injEq]
  exact ⟨Subtype.ext hLetters, Subtype.ext hLeading, Subtype.ext hDigits⟩

/-- The address of the reference that is spelled has the unbounded row and column, each
saturated. -/
theorem reference_address (tree : CellTree) :
    tree.reference.address = ⟨Address.saturate tree.row, Address.saturate tree.column⟩ := by
  rw [Reference.address, reference, Address.rowOfDigits_eq,
    Address.columnOfLetters_eq tree.letters.property.2]
  rfl

/-- A derived cell is scanned whole where no digit follows. -/
theorem scan?_append (tree : CellTree) {rest : List Char} (hRest : NotNext Char.isDigit rest) :
    Reference.scan? (tree.chars ++ rest) = some (tree.reference, rest) := by
  have hLetters : ∀ c ∈ tree.letters.val, c.isUpper = true :=
    fun c hc => isUpper_iff.mpr (tree.letters.property.2 c hc)
  have hDigits : ∀ c ∈ tree.leading.val :: tree.digits.val, c.isDigit = true := by
    intro c hc
    rcases List.mem_cons.mp hc with rfl | hc
    · exact Text.isDigit_of_isNonzeroDigit (isNonzeroDigit_iff.mpr tree.leading.property)
    · exact isDigit_of_mem c hc
  have hLeading : NotNext Char.isUpper (tree.leading.val :: (tree.digits.val ++ rest)) := by
    intro c hc
    cases hc
    by_contra hUpper
    simp only [Bool.not_eq_false, isUpper_iff] at hUpper
    exact absurd (Char.le_trans hUpper.1 tree.leading.property.2) (by decide)
  rw [chars, List.append_assoc, List.cons_append, Reference.scan?,
    takeWhile_append_of_notNext hLetters hLeading, dropWhile_append_of_notNext hLetters hLeading]
  have hTake := takeWhile_append_of_notNext hDigits hRest
  have hDrop := dropWhile_append_of_notNext hDigits hRest
  rw [List.cons_append] at hTake hDrop
  cases hName : tree.letters.val with
  | nil => exact absurd hName tree.letters.property.1
  | cons letter letters =>
      simp [isNonzeroDigit_iff.mpr tree.leading.property, hTake, hDrop, reference, hName]

/-- What is scanned is spelled by a derivation, which ends where the scanner does. -/
theorem exists_of_scan? {text rest : List Char} {r : Reference}
    (h : Reference.scan? text = some (r, rest)) :
    ∃ tree : CellTree, tree.reference = r ∧ tree.chars ++ rest = text := by
  have hAppend := Reference.eq_append_of_scan? h
  have hUpper : ∀ c ∈ text.takeWhile Char.isUpper, 'A' ≤ c ∧ c ≤ 'Z' :=
    fun c hc => isUpper_iff.mp (mem_takeWhile hc)
  unfold Reference.scan? at h
  dsimp only at h
  split at h
  next => cases h
  next => cases h
  next c more hDigits hName =>
    split at h
    next hLeading =>
      have hDigit := Text.isDigit_of_isNonzeroDigit hLeading
      cases h
      rw [hDigits, List.takeWhile_cons_of_pos hDigit] at hAppend ⊢
      refine ⟨⟨⟨text.takeWhile Char.isUpper, hName, hUpper⟩,
        ⟨c, isNonzeroDigit_iff.mp hLeading⟩, digitsNext more⟩, rfl, hAppend.symm⟩
    next => cases h

end CellTree

end PlainSheet
