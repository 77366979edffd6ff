import PlainSheet.Table.Storage

/-! Which bytes a table is read from: those of some text, within the limit on their number. Main
result: a file and standard input agree on this and on the table. The size of a file is known
before it is read, whereas of standard input one byte past the limit has to be read. -/

namespace PlainSheet

/-- Bytes are decoded to the text that has them in UTF-8. -/
theorem Text.decode_eq_ok_iff {bytes : ByteArray} {text : String} :
    decode bytes = .ok text ↔ text.toUTF8 = bytes := by
  unfold decode String.fromUTF8?
  by_cases hValid : bytes.IsValidUTF8
  · rw [dif_pos hValid]
    constructor
    · intro h
      cases h
      rfl
    · intro h
      subst h
      rfl
  · rw [dif_neg hValid]
    constructor
    · intro h
      cases h
    · intro h
      exact absurd (h ▸ text.isValidUTF8) hValid

namespace Table

/-- A file gives a table when its bytes are those of a text within the limit. -/
theorem ofFile_eq_ok_iff {path : String} {contents : Except FileError ByteArray} {table : Table} :
    ofFile path contents = .ok table ↔
      ∃ text : String, contents = .ok text.toUTF8 ∧ text.utf8ByteSize ≤ maxBytes ∧
        ofString text = table := by
  unfold ofFile
  cases contents with
  | error cause => simp
  | ok bytes =>
      dsimp only
      constructor
      · intro h
        split at h
        · cases h
        · next hSize =>
            split at h
            · cases h
            · next text hText =>
                obtain rfl := Text.decode_eq_ok_iff.mp hText
                exact ⟨text, rfl, Nat.le_of_not_lt hSize, Except.ok.inj h⟩
      · intro h
        obtain ⟨text, hBytes, hSize, rfl⟩ := h
        obtain rfl := Except.ok.inj hBytes
        have hWithin : ¬maxBytes < text.toUTF8.size := Nat.not_lt.mpr hSize
        rw [if_neg hWithin, Text.decode_eq_ok_iff.mpr rfl]

section Input

variable {bytes : ByteArray}

/-- The byte past the limit is read exactly when there is one. -/
theorem maxBytes_lt_size_readInput_iff :
    maxBytes < (readInput bytes).size ↔ maxBytes < bytes.size := by
  rw [readInput, ByteArray.size_extract]
  omega

/-- Nothing is cut off, and no character broken, within the limit. -/
theorem readInput_eq (h : bytes.size ≤ maxBytes) : readInput bytes = bytes := by
  have hWhole : max (maxBytes + 1) bytes.size = maxBytes + 1 := by omega
  rw [readInput, ← hWhole, ByteArray.extract_zero_max_size]

theorem ofInput_of_lt (h : maxBytes < bytes.size) : ofInput bytes = .error .inputTooLarge := by
  rw [ofInput, if_pos (maxBytes_lt_size_readInput_iff.mpr h)]

theorem ofInput_of_le (h : bytes.size ≤ maxBytes) :
    ofInput bytes =
      match Text.decode bytes with
      | .error fault => .error (.inputNotText fault)
      | .ok text => .ok (ofString text) := by
  have hWithin : ¬maxBytes < (readInput bytes).size :=
    fun hMore => Nat.not_lt.mpr h (maxBytes_lt_size_readInput_iff.mp hMore)
  have hRead : ofInput bytes =
      match Text.decode (readInput bytes) with
      | .error fault => .error (.inputNotText fault)
      | .ok text => .ok (ofString text) := if_neg hWithin
  rw [hRead, readInput_eq h]

/-- Standard input gives a table when its bytes are those of a text within the limit. -/
theorem ofInput_eq_ok_iff {table : Table} :
    ofInput bytes = .ok table ↔
      ∃ text : String, bytes = text.toUTF8 ∧ text.utf8ByteSize ≤ maxBytes ∧
        ofString text = table := by
  constructor
  · intro h
    rcases Nat.lt_or_ge maxBytes bytes.size with hMore | hSize
    · rw [ofInput_of_lt hMore] at h
      cases h
    · rw [ofInput_of_le hSize] at h
      split at h
      · cases h
      · next text hText =>
          obtain rfl := Text.decode_eq_ok_iff.mp hText
          exact ⟨text, rfl, hSize, Except.ok.inj h⟩
  · intro h
    obtain ⟨text, rfl, hSize, rfl⟩ := h
    have hWithin : text.toUTF8.size ≤ maxBytes := hSize
    rw [ofInput_of_le hWithin, Text.decode_eq_ok_iff.mpr rfl]

/-- Standard input is refused for its size whenever it is too large, UTF-8 or not. -/
theorem ofInput_eq_inputTooLarge_iff :
    ofInput bytes = .error .inputTooLarge ↔ maxBytes < bytes.size := by
  constructor
  · intro h
    rcases Nat.lt_or_ge maxBytes bytes.size with hMore | hSize
    · exact hMore
    · rw [ofInput_of_le hSize] at h
      split at h <;> cases h
  · exact ofInput_of_lt

/-- A file is refused for its size whenever it is too large, UTF-8 or not. -/
theorem ofFile_eq_fileTooLarge_iff {path : String} :
    ofFile path (.ok bytes) = .error (.fileTooLarge path bytes.size) ↔ maxBytes < bytes.size := by
  unfold ofFile
  dsimp only
  constructor
  · intro h
    split at h
    · next hMore => exact hMore
    · split at h <;> cases h
  · intro h
    rw [if_pos h]

theorem ofFile_eq_ofInput_iff {path : String} {table : Table} :
    ofFile path (.ok bytes) = .ok table ↔ ofInput bytes = .ok table := by
  rw [ofFile_eq_ok_iff, ofInput_eq_ok_iff]
  simp only [Except.ok.injEq]

/-- A table is read from bytes if they are those of a text within the limit. -/
theorem exists_ofInput_eq_ok_iff :
    (∃ table, ofInput bytes = .ok table) ↔ bytes.size ≤ maxBytes ∧ bytes.IsValidUTF8 := by
  constructor
  · intro h
    obtain ⟨table, hTable⟩ := h
    obtain ⟨text, rfl, hSize, -⟩ := ofInput_eq_ok_iff.mp hTable
    exact ⟨hSize, text.isValidUTF8⟩
  · intro h
    obtain ⟨hSize, hValid⟩ := h
    exact ⟨_, ofInput_eq_ok_iff.mpr ⟨String.fromUTF8 bytes hValid, rfl, hSize, rfl⟩⟩

theorem isInvalidData_of_ofInput {cause : ReadError} (h : ofInput bytes = .error cause) :
    cause.isInvalidData = true := by
  unfold ofInput at h
  split at h
  · cases h
    rfl
  · split at h
    · cases h
      rfl
    · cases h

theorem isInvalidData_of_ofFile {path : String} {cause : ReadError}
    (h : ofFile path (.ok bytes) = .error cause) : cause.isInvalidData = true := by
  unfold ofFile at h
  dsimp only at h
  split at h
  · cases h
    rfl
  · split at h
    · cases h
      rfl
    · cases h

end Input

/-- A file and standard input with the same bytes give the same table or are both refused. They
give one exactly if there are no more bytes than the limit and these are UTF-8. Bytes past the
limit are refused for their number, whether they are UTF-8 or not. -/
theorem ofFile_agrees_with_ofInput (files : FileTree) (path : String) (bytes : ByteArray)
    (h : files.read path = .ok bytes) :
    (∀ table, ofFile path (files.read path) = .ok table ↔ ofInput bytes = .ok table) ∧
    ((∃ table, ofInput bytes = .ok table) ↔ bytes.size ≤ maxBytes ∧ bytes.IsValidUTF8) ∧
    (ofFile path (files.read path) = .error (.fileTooLarge path bytes.size) ↔
      maxBytes < bytes.size) ∧
    (ofInput bytes = .error .inputTooLarge ↔ maxBytes < bytes.size) ∧
    ∀ cause, ofFile path (files.read path) = .error cause ∨ ofInput bytes = .error cause →
      cause.isInvalidData = true := by
  rw [h]
  refine ⟨fun _ => ofFile_eq_ofInput_iff, exists_ofInput_eq_ok_iff, ofFile_eq_fileTooLarge_iff,
    ofInput_eq_inputTooLarge_iff, ?_⟩
  intro cause hCause
  rcases hCause with hFile | hInput
  · exact isInvalidData_of_ofFile hFile
  · exact isInvalidData_of_ofInput hInput

/-- The last character has two bytes and lies behind the limit. Only the first of the two is read
of standard input, so what is read is not UTF-8, and yet it is refused for its size. -/
theorem ofFile_agrees_with_ofInput_on_cut_character :
    let bytes : ByteArray := ⟨Array.replicate maxBytes 0x61 ++ #[0xc3, 0xa9]⟩
    let files := (FileTree.emptyAt ["work"]).put ["work", "in.txt"] (.file bytes)
    files.read "in.txt" = .ok bytes ∧ maxBytes < bytes.size ∧
      ofFile "in.txt" (files.read "in.txt") = .error (.fileTooLarge "in.txt" bytes.size) ∧
      ofInput bytes = .error .inputTooLarge := by
  intro bytes files
  have hRead : files.read "in.txt" = .ok bytes := rfl
  have hSize : maxBytes < bytes.size := by simp [bytes, ByteArray.size]
  obtain ⟨-, -, hFile, hInput, -⟩ := ofFile_agrees_with_ofInput files "in.txt" bytes hRead
  exact ⟨hRead, hSize, hFile.mpr hSize, hInput.mpr hSize⟩

end Table

end PlainSheet
