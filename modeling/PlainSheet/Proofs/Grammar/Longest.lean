import PlainSheet.Proofs.Grammar.Call

/-! Scanners take as much as they can. What a scanner takes belongs to its language, no longer
beginning of the text does, and where it takes nothing no beginning belongs to the language. -/

namespace PlainSheet

/-- A beginning of a text belongs to a language, and no longer one does. -/
structure IsLongest (language : List Char → Prop) (taken text : List Char) : Prop where
  mem : language taken
  isPrefix : taken <+: text
  length_le : ∀ other, language other → other <+: text → other.length ≤ taken.length

/-- No beginning of a text belongs to a language. -/
def NoBeginning (language : List Char → Prop) (text : List Char) : Prop :=
  ∀ other, language other → ¬other <+: text

/-- A scanner, which answers what is behind a beginning of the text, takes what belongs to a
language, and takes no less than any beginning of the text that does. -/
structure ScansLongest (language : List Char → Prop)
    (scan : List Char → Option (List Char)) : Prop where
  sound : ∀ {text rest}, scan text = some rest → ∃ taken, language taken ∧ taken ++ rest = text
  greedy : ∀ {taken}, language taken → ∀ rest,
    ∃ after, scan (taken ++ rest) = some after ∧ after.length ≤ rest.length

namespace ScansLongest

variable {language : List Char → Prop} {scan : List Char → Option (List Char)}
  {text taken rest : List Char}

theorem isLongest (h : ScansLongest language scan) (hScan : scan (taken ++ rest) = some rest) :
    IsLongest language taken (taken ++ rest) := by
  obtain ⟨token, hToken, hText⟩ := h.sound hScan
  rw [List.append_cancel_right hText] at hToken
  refine ⟨hToken, List.prefix_append taken rest, fun other hOther hPrefix => ?_⟩
  obtain ⟨more, hMore⟩ := hPrefix
  obtain ⟨after, hAfter, hLength⟩ := h.greedy hOther more
  rw [hMore, hScan] at hAfter
  cases hAfter
  have hLengths := congrArg List.length hMore
  simp only [List.length_append] at hLengths
  omega

theorem noBeginning (h : ScansLongest language scan) (hScan : scan text = none) :
    NoBeginning language text := by
  rintro other hOther ⟨more, rfl⟩
  obtain ⟨after, hAfter, -⟩ := h.greedy hOther more
  cases hScan.symm.trans hAfter

end ScansLongest

/-- The texts of numbers. -/
def IsNumber (text : List Char) : Prop := ∃ tree : NumberTree, tree.chars = text

/-- The texts of cells. -/
def IsCell (text : List Char) : Prop := ∃ tree : CellTree, tree.chars = text

/-- A comma and any number of spaces before and behind it. -/
def IsSeparator (text : List Char) : Prop :=
  ∃ before after, List.replicate before ' ' ++ ',' :: List.replicate after ' ' = text

theorem length_dropWhile_le (member : Char → Bool) (text : List Char) :
    (text.dropWhile member).length ≤ text.length :=
  (List.dropWhile_sublist member).length_le

namespace Numeral

theorem length_scanFraction_le (text : List Char) : (scanFraction text).2.length ≤ text.length := by
  unfold scanFraction
  split
  · exact Nat.le_succ_of_le (length_dropWhile_le _ _)
  · exact Nat.le_refl _

theorem scanFraction_point {digits : List Char} (hDigits : ∀ c ∈ digits, c.isDigit = true)
    (rest : List Char) :
    scanFraction ('.' :: (digits ++ rest)) =
      (some (digits ++ rest.takeWhile Char.isDigit), rest.dropWhile Char.isDigit) := by
  rw [scanFraction, List.takeWhile_append_of_pos hDigits, List.dropWhile_append_of_pos hDigits]

end Numeral

/-- What a tree spells is scanned, and perhaps more. -/
theorem NumberTree.exists_scan?_append (tree : NumberTree) (rest : List Char) :
    ∃ n after, Numeral.scan? (tree.chars ++ rest) = some (n, after) ∧
      after.length ≤ rest.length := by
  cases tree with
  | zero =>
      have hLength := Numeral.length_scanFraction_le rest
      change ∃ n after, Numeral.scanUnsigned? false ('0' :: rest) = some (n, after) ∧ _
      rw [Numeral.scanUnsigned?, if_pos rfl]
      rcases hFraction : Numeral.scanFraction rest with ⟨_ | digits, after⟩
      all_goals
        rw [hFraction] at hLength
        exact ⟨_, _, rfl, hLength⟩
  | belowOne minus decimals =>
      rw [chars, List.append_assoc, scan?_signChars minus (by simp), List.cons_append,
        List.cons_append, Numeral.scanUnsigned?, if_pos rfl,
        Numeral.scanFraction_point isDigit_of_mem]
      exact ⟨_, _, rfl, length_dropWhile_le _ _⟩
  | fromOne minus leading digits decimals =>
      have hMinus : leading.val ≠ '-' := fun h => absurd (h ▸ leading.property.1) (by decide)
      rw [chars, List.append_assoc, scan?_signChars minus (by simpa [eq_comm] using hMinus),
        List.cons_append, List.append_assoc, Numeral.scanUnsigned?,
        if_neg (leading_ne_zero leading), if_pos (isNonzeroDigit_iff.mpr leading.property),
        List.dropWhile_append_of_pos isDigit_of_mem]
      refine ⟨_, _, rfl, ?_⟩
      cases decimals with
      | none =>
          exact Nat.le_trans (Numeral.length_scanFraction_le _) (length_dropWhile_le _ _)
      | some decimals =>
          change (Numeral.scanFraction ('.' :: (decimals.val ++ rest))).2.length ≤ _
          rw [Numeral.scanFraction_point isDigit_of_mem]
          exact length_dropWhile_le _ _

theorem scansLongest_number :
    ScansLongest IsNumber fun text => (Numeral.scan? text).map Prod.snd where
  sound h := by
    obtain ⟨⟨n, rest⟩, hScan, rfl⟩ := Option.map_eq_some_iff.mp h
    obtain ⟨tree, -, hText⟩ := NumberTree.exists_of_scan? hScan
    exact ⟨tree.chars, ⟨tree, rfl⟩, hText⟩
  greedy := by
    rintro _ ⟨tree, rfl⟩ rest
    obtain ⟨n, after, hScan, hLength⟩ := tree.exists_scan?_append rest
    exact ⟨after, by rw [hScan]; rfl, hLength⟩

/-- What a tree spells is scanned, and perhaps more digits. -/
theorem CellTree.exists_scan?_append (tree : CellTree) (rest : List Char) :
    ∃ r after, Reference.scan? (tree.chars ++ rest) = some (r, after) ∧
      after.length ≤ rest.length := by
  -- A tree with more digits spells everything that is taken.
  let more : RangeRun '0' '9' := ⟨tree.digits.val ++ (digitsNext rest).val, by
    intro c hc
    rcases List.mem_append.mp hc with hOld | hNew
    · exact tree.digits.property c hOld
    · exact (digitsNext rest).property c hNew⟩
  have hText : tree.chars ++ rest =
      CellTree.chars ⟨tree.letters, tree.leading, more⟩ ++ rest.dropWhile Char.isDigit := by
    simp [chars, more, digitsNext, List.takeWhile_append_dropWhile]
  have hEnd : NotNext Char.isDigit (rest.dropWhile Char.isDigit) := by
    intro c hc
    have hNot := List.head?_dropWhile_not Char.isDigit rest
    rw [Option.mem_def.mp hc] at hNot
    exact hNot
  rw [hText, scan?_append _ hEnd]
  exact ⟨_, _, rfl, length_dropWhile_le _ _⟩

theorem scansLongest_cell :
    ScansLongest IsCell fun text => (Reference.scan? text).map Prod.snd where
  sound h := by
    obtain ⟨⟨r, rest⟩, hScan, rfl⟩ := Option.map_eq_some_iff.mp h
    obtain ⟨tree, -, hText⟩ := CellTree.exists_of_scan? hScan
    exact ⟨tree.chars, ⟨tree, rfl⟩, hText⟩
  greedy := by
    rintro _ ⟨tree, rfl⟩ rest
    obtain ⟨r, after, hScan, hLength⟩ := tree.exists_scan?_append rest
    exact ⟨after, by rw [hScan]; rfl, hLength⟩

theorem scansLongest_separator : ScansLongest IsSeparator Call.scanSeparator? where
  sound h := by
    obtain ⟨before, after, hText⟩ := FurtherTree.exists_of_scanSeparator? h
    exact ⟨_, ⟨before, after, rfl⟩, by simpa using hText⟩
  greedy := by
    rintro _ ⟨before, after, rfl⟩ rest
    have hComma : NotNext Call.isSpace (',' :: (List.replicate after ' ' ++ rest)) := by
      simp [NotNext, Call.isSpace]
    rw [List.append_assoc, List.cons_append, Call.scanSeparator?,
      dropWhile_append_of_notNext isSpace_of_mem_replicate hComma]
    refine ⟨_, rfl, ?_⟩
    rw [List.dropWhile_append_of_pos isSpace_of_mem_replicate]
    exact length_dropWhile_le _ _

end PlainSheet
