import PlainSheet.Address

/-! Rows and columns are computed with an index that stays at the largest one once it is
reached. They are the unbounded numbers, saturated once. -/

namespace PlainSheet.Address

theorem saturate_of_le {index : Nat} (h : index ≤ maxIndex) : saturate index = index :=
  Nat.min_eq_left h

/-- An index past the largest one stays there under any further digit, so an earlier saturation is
not seen after a later one. -/
theorem saturate_mul_add (index base digit : Nat) (hBase : 1 ≤ base) :
    saturate (saturate index * base + digit) = saturate (index * base + digit) := by
  unfold saturate
  by_cases hSmall : index ≤ maxIndex
  · rw [Nat.min_eq_left hSmall]
  · have hLarge : maxIndex ≤ maxIndex * base + digit := by
      have hScaled := Nat.le_mul_of_pos_right maxIndex hBase
      omega
    have hLarger : maxIndex ≤ index * base + digit := by
      have hScaled := Nat.le_mul_of_pos_right index hBase
      omega
    rw [Nat.min_eq_right (by omega : maxIndex ≤ index), Nat.min_eq_right hLarge,
      Nat.min_eq_right hLarger]

/-- Saturating after each digit is saturating once at the end. -/
theorem foldl_saturate {α : Type} (base : Nat) (hBase : 1 ≤ base) (digit : α → Nat)
    (digits : List α) (index : Nat) :
    digits.foldl (fun index d => saturate (index * base + digit d)) (saturate index) =
      saturate (digits.foldl (fun index d => index * base + digit d) index) := by
  induction digits generalizing index with
  | nil => rfl
  | cons d digits ih =>
      rw [List.foldl_cons, List.foldl_cons, saturate_mul_add _ _ _ hBase, ih]

/-- A row is the number that its digits spell, saturated. -/
theorem rowOfDigits_eq (digits : List Char) :
    rowOfDigits digits = saturate (Nat.ofDigitChars 10 digits 0) := by
  have hFold := foldl_saturate 10 (by omega) (fun c : Char => c.toNat - '0'.toNat) digits 0
  simp only [Nat.ofDigitChars, Nat.mul_comm 10]
  exact hFold

theorem utf8EncodeChar_of_capital {c : Char} (h : 'A' ≤ c ∧ c ≤ 'Z') :
    String.utf8EncodeChar c = [c.val.toUInt8] := by
  apply String.utf8EncodeChar_eq_singleton
  rw [Char.utf8Size_eq_one_iff]
  exact Nat.le_trans h.2 (by decide)

theorem toNat_toUInt8_of_capital {c : Char} (h : 'A' ≤ c ∧ c ≤ 'Z') :
    c.val.toUInt8.toNat = c.toNat := by
  have hLe : c.toNat ≤ 'Z'.toNat := h.2
  have hByte : c.toNat < 256 := Nat.lt_of_le_of_lt hLe (by decide)
  rw [UInt32.toNat_toUInt8]
  exact Nat.mod_eq_of_lt hByte

/-- Capital letters have one byte each, so a column counts them one by one. -/
theorem foldl_bytes_of_capitals {letters : List Char}
    (hLetters : ∀ c ∈ letters, 'A' ≤ c ∧ c ≤ 'Z') (column : Nat) :
    (letters.flatMap String.utf8EncodeChar).foldl
        (fun column byte => saturate (column * 26 + (byte.toNat - 'A'.toNat + 1))) column =
      letters.foldl (fun column c => saturate (column * 26 + (c.toNat - 'A'.toNat + 1)))
        column := by
  induction letters generalizing column with
  | nil => rfl
  | cons c letters ih =>
      have hCapital := hLetters c (List.mem_cons_self ..)
      rw [List.flatMap_cons, List.foldl_append, utf8EncodeChar_of_capital hCapital,
        List.foldl_cons, List.foldl_nil, List.foldl_cons, toNat_toUInt8_of_capital hCapital]
      exact ih (fun d hd => hLetters d (List.mem_cons_of_mem c hd)) _

/-- A column is the number that its letters spell to the base 26, saturated. -/
theorem columnOfLetters_eq {letters : List Char} (hLetters : ∀ c ∈ letters, 'A' ≤ c ∧ c ≤ 'Z') :
    columnOfLetters letters =
      saturate (letters.foldl (fun column c => column * 26 + (c.toNat - 'A'.toNat + 1)) 0) := by
  rw [columnOfLetters, foldl_bytes_of_capitals hLetters]
  exact foldl_saturate 26 (by omega) (fun c : Char => c.toNat - 'A'.toNat + 1) letters 0

end PlainSheet.Address
