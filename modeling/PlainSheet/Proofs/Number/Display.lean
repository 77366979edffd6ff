import PlainSheet.Number.Display

/-! The characters that shown numbers are made of. -/

namespace PlainSheet.Binary64

/-- The digits, the minus sign and the point of shown numbers, and the letters of the texts
that are shown for values that are not finite. -/
def isDisplayChar (c : Char) : Bool :=
  c.isDigit || c ∈ ['-', '.', 'N', 'a', 'I', 'n', 'f']

theorem isDisplayChar_of_mem_toString {n : Nat} {c : Char} (h : c ∈ (toString n).toList) :
    isDisplayChar c = true := by
  rw [Nat.toString_eq_repr, Nat.toList_repr] at h
  simp [isDisplayChar, Nat.isDigit_of_mem_toDigits (by decide) (by decide) h]

theorem isDisplayChar_of_mem_signText {negative : Bool} {c : Char}
    (h : c ∈ (signText negative).toList) : isDisplayChar c = true := by
  cases negative with
  | false => simp [signText] at h
  | true =>
      have hMinus : c = '-' := by simpa [signText] using h
      rw [hMinus]
      rfl

/-- Hundredths are shown with digits and one point. -/
theorem isDisplayChar_of_mem_hundredthsText {hundredths : Nat} {c : Char}
    (h : c ∈ (hundredthsText hundredths).toList) : isDisplayChar c = true := by
  simp only [hundredthsText, String.toList_append, List.mem_append] at h
  rcases h with ((hWhole | hPoint) | hTenths) | hLast
  · exact isDisplayChar_of_mem_toString hWhole
  · have hPoint : c = '.' := by simpa using hPoint
    rw [hPoint]
    rfl
  · exact isDisplayChar_of_mem_toString hTenths
  · exact isDisplayChar_of_mem_toString hLast

/-- Nothing else occurs in a shown number: no separator, no blank character and no `=`. -/
theorem isDisplayChar_of_mem_display {value : Binary64} {c : Char}
    (h : c ∈ value.display.toList) : isDisplayChar c = true := by
  cases value with
  | nan =>
      have hName : c = 'N' ∨ c = 'a' ∨ c = 'N' := by simpa [display] using h
      rcases hName with rfl | rfl | rfl <;> rfl
  | infinity negative =>
      rw [display, String.toList_append, List.mem_append] at h
      rcases h with hSign | hName
      · exact isDisplayChar_of_mem_signText hSign
      · have hName : c = 'I' ∨ c = 'n' ∨ c = 'f' := by simpa using hName
        rcases hName with rfl | rfl | rfl <;> rfl
  | finite negative m =>
      rw [display] at h
      split at h
      · rw [String.toList_append, List.mem_append] at h
        rcases h with hSign | hWhole
        · exact isDisplayChar_of_mem_signText hSign
        · exact isDisplayChar_of_mem_toString hWhole
      · rw [String.toList_append, List.mem_append] at h
        rcases h with hSign | hHundredths
        · exact isDisplayChar_of_mem_signText hSign
        · exact isDisplayChar_of_mem_hundredthsText hHundredths

/-- Every value is shown by some text. -/
theorem display_ne_nil (value : Binary64) : value.display.toList ≠ [] := by
  cases value with
  | nan => simp [display]
  | infinity negative => simp [display]
  | finite negative m =>
      rw [display]
      split
      · simp
      · simp [hundredthsText]

end PlainSheet.Binary64
