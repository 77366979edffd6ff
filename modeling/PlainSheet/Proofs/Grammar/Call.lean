import PlainSheet.Proofs.Grammar.Token

/-! Scanning operands, separators and calls. The main results: a text is read as a call
exactly when some derivation of a call derives it, and no text has two derivations. -/

namespace PlainSheet

theorem isSpace_of_mem_replicate {count : Nat} :
    ∀ c ∈ List.replicate count ' ', Call.isSpace c = true := by
  intro c hc
  rw [List.eq_of_mem_replicate hc]
  rfl

theorem takeWhile_isSpace_eq_replicate (text : List Char) :
    text.takeWhile Call.isSpace = List.replicate (text.takeWhile Call.isSpace).length ' ' := by
  apply List.eq_replicate_of_mem
  intro c hc
  simpa [Call.isSpace] using mem_takeWhile hc

/-- A run of spaces before something else can be told from what follows it. -/
theorem spaces_append_inj {count count' : Nat} {rest rest' : List Char}
    (hRest : NotNext Call.isSpace rest) (hRest' : NotNext Call.isSpace rest')
    (h : List.replicate count ' ' ++ rest = List.replicate count' ' ' ++ rest') :
    count = count' ∧ rest = rest' := by
  have hTake := congrArg (List.takeWhile Call.isSpace) h
  have hDrop := congrArg (List.dropWhile Call.isSpace) h
  rw [takeWhile_append_of_notNext isSpace_of_mem_replicate hRest,
    takeWhile_append_of_notNext isSpace_of_mem_replicate hRest'] at hTake
  rw [dropWhile_append_of_notNext isSpace_of_mem_replicate hRest,
    dropWhile_append_of_notNext isSpace_of_mem_replicate hRest'] at hDrop
  exact ⟨by simpa using congrArg List.length hTake, hDrop⟩

/-- The characters that operands are written with. -/
def isOperandChar (c : Char) : Bool := c == '-' || c == '.' || c.isDigit || c.isUpper

theorem isOperandChar_of_isDigit {c : Char} (h : c.isDigit = true) : isOperandChar c = true := by
  simp [isOperandChar, h]

namespace NumberTree

theorem isOperandChar_of_mem {tree : NumberTree} {c : Char} (hc : c ∈ tree.chars) :
    isOperandChar c = true := by
  have hSign : ∀ minus, c ∈ Numeral.signChars minus → isOperandChar c = true := by
    intro minus hc
    cases minus with
    | true =>
        rw [List.mem_singleton.mp hc]
        rfl
    | false => cases hc
  have hDigits : ∀ run : RangeRun '0' '9', c ∈ run.val → isOperandChar c = true :=
    fun run hc => isOperandChar_of_isDigit (isDigit_of_mem c hc)
  cases tree with
  | zero =>
      rw [List.mem_singleton.mp hc]
      rfl
  | belowOne minus decimals =>
      simp only [chars, List.mem_append, List.mem_cons] at hc
      rcases hc with hc | rfl | rfl | hc
      · exact hSign minus hc
      · rfl
      · rfl
      · exact hDigits decimals hc
  | fromOne minus leading digits decimals =>
      simp only [chars, List.mem_append, List.mem_cons] at hc
      rcases hc with hc | rfl | hc | hc
      · exact hSign minus hc
      · have hLeading := isNonzeroDigit_iff.mpr leading.property
        exact isOperandChar_of_isDigit (Text.isDigit_of_isNonzeroDigit hLeading)
      · exact hDigits digits hc
      · cases decimals with
        | none => cases hc
        | some decimals =>
            rcases List.mem_cons.mp hc with rfl | hc
            · rfl
            · exact hDigits decimals hc

theorem exists_cons (tree : NumberTree) :
    ∃ c rest, tree.chars = c :: rest ∧ (c = '-' ∨ c.isDigit = true) := by
  cases tree with
  | zero => exact ⟨'0', [], rfl, .inr rfl⟩
  | belowOne minus decimals =>
      cases minus with
      | true => exact ⟨'-', _, rfl, .inl rfl⟩
      | false => exact ⟨'0', _, rfl, .inr rfl⟩
  | fromOne minus leading digits decimals =>
      cases minus with
      | true => exact ⟨'-', _, rfl, .inl rfl⟩
      | false =>
          have hLeading := isNonzeroDigit_iff.mpr leading.property
          exact ⟨leading.val, _, rfl, .inr (Text.isDigit_of_isNonzeroDigit hLeading)⟩

end NumberTree

namespace CellTree

theorem isOperandChar_of_mem {tree : CellTree} {c : Char} (hc : c ∈ tree.chars) :
    isOperandChar c = true := by
  simp only [chars, List.mem_append, List.mem_cons] at hc
  rcases hc with hc | rfl | hc
  · simp [isOperandChar, isUpper_iff.mpr (tree.letters.property.2 c hc)]
  · have hLeading := isNonzeroDigit_iff.mpr tree.leading.property
    exact isOperandChar_of_isDigit (Text.isDigit_of_isNonzeroDigit hLeading)
  · exact isOperandChar_of_isDigit (isDigit_of_mem c hc)

theorem exists_cons (tree : CellTree) :
    ∃ c rest, tree.chars = c :: rest ∧ c.isUpper = true := by
  cases hLetters : tree.letters.val with
  | nil => exact absurd hLetters tree.letters.property.1
  | cons c letters =>
      refine ⟨c, letters ++ tree.leading.val :: tree.digits.val, by simp [chars, hLetters], ?_⟩
      exact isUpper_iff.mpr (tree.letters.property.2 c (by simp [hLetters]))

/-- No number starts where a cell does. -/
theorem scan?_numeral (tree : CellTree) (rest : List Char) :
    Numeral.scan? (tree.chars ++ rest) = none := by
  obtain ⟨c, more, hChars, hUpper⟩ := tree.exists_cons
  cases hScan : Numeral.scan? (tree.chars ++ rest) with
  | none => rfl
  | some read =>
      obtain ⟨n, left⟩ := read
      obtain ⟨number, -, hNumber⟩ := NumberTree.exists_of_scan? hScan
      obtain ⟨d, others, hOther, hFirst⟩ := number.exists_cons
      simp only [hOther, hChars, List.cons_append, List.cons.injEq] at hNumber
      obtain ⟨rfl, -⟩ := hNumber
      rcases hFirst with rfl | hDigit
      · exact absurd hUpper (by decide)
      · exact absurd (Char.le_trans (isUpper_iff.mp hUpper).1 (isDigit_iff.mp hDigit).2) (by decide)

end CellTree

namespace OperandTree

/-- A derivation of an operand is determined by the operand that it spells. -/
theorem operand_injective : Function.Injective operand := by
  intro first second h
  cases first with
  | number first =>
      cases second with
      | number second => rw [NumberTree.numeral_injective (Operand.numeral.inj h)]
      | cell second => cases h
  | cell first =>
      cases second with
      | number second => cases h
      | cell second => rw [CellTree.reference_injective (Operand.cell.inj h)]

theorem chars_ne_nil (tree : OperandTree) : tree.chars ≠ [] := by
  cases tree with
  | number tree =>
      obtain ⟨c, rest, hChars, -⟩ := tree.exists_cons
      simp [chars, hChars]
  | cell tree =>
      obtain ⟨c, rest, hChars, -⟩ := tree.exists_cons
      simp [chars, hChars]

theorem isOperandChar_of_mem {tree : OperandTree} {c : Char} (hc : c ∈ tree.chars) :
    isOperandChar c = true := by
  cases tree with
  | number tree => exact NumberTree.isOperandChar_of_mem hc
  | cell tree => exact CellTree.isOperandChar_of_mem hc

/-- No separator, parenthesis or other stranger stands in an operand. -/
theorem not_mem_chars (tree : OperandTree) {c : Char} (hc : isOperandChar c = false) :
    c ∉ tree.chars := by
  intro hMem
  rw [isOperandChar_of_mem hMem] at hc
  cases hc

/-- An operand starts with no space, so the spaces before it end where it starts. -/
theorem notNext_isSpace (tree : OperandTree) (rest : List Char) :
    NotNext Call.isSpace (tree.chars ++ rest) := by
  intro c hc
  rw [List.head?_append, List.head?_eq_some_head tree.chars_ne_nil, Option.some_or] at hc
  have hMem : c ∈ tree.chars := Option.mem_some_iff.mp hc ▸ List.head_mem tree.chars_ne_nil
  by_contra hSpace
  simp only [Call.isSpace, Bool.not_eq_false, beq_iff_eq] at hSpace
  subst hSpace
  exact tree.not_mem_chars rfl hMem

/-- A derived operand is scanned whole where no digit and no point follows. -/
theorem scan?_append (tree : OperandTree) {rest : List Char}
    (hRest : NotNext continuesNumber rest) :
    Operand.scan? (tree.chars ++ rest) = some (tree.operand, rest) := by
  cases tree with
  | number tree => simp [chars, operand, Operand.scan?, tree.scan?_append hRest]
  | cell tree =>
      simp [chars, operand, Operand.scan?, tree.scan?_numeral, tree.scan?_append hRest.isDigit]

theorem exists_of_scan? {text rest : List Char} {read : Operand}
    (h : Operand.scan? text = some (read, rest)) :
    ∃ tree : OperandTree, tree.operand = read ∧ tree.chars ++ rest = text := by
  unfold Operand.scan? at h
  split at h
  next n middle hNumber =>
    cases h
    obtain ⟨tree, rfl, hChars⟩ := NumberTree.exists_of_scan? hNumber
    exact ⟨number tree, rfl, hChars⟩
  next =>
    obtain ⟨⟨r, middle⟩, hCell, hEq⟩ := Option.map_eq_some_iff.mp h
    cases hEq
    obtain ⟨tree, rfl, hChars⟩ := CellTree.exists_of_scan? hCell
    exact ⟨cell tree, rfl, hChars⟩

end OperandTree

namespace FurtherTree

/-- A separator is scanned whole, since an operand starts with no space. -/
theorem scanSeparator?_append (tree : FurtherTree) (rest : List Char) :
    Call.scanSeparator? (tree.chars ++ rest) = some (tree.operand.chars ++ rest) := by
  have hComma : NotNext Call.isSpace
      (',' :: (List.replicate tree.spacesAfter ' ' ++ (tree.operand.chars ++ rest))) := by
    simp [NotNext, Call.isSpace]
  rw [Call.scanSeparator?, chars, separator]
  simp only [List.append_assoc, List.cons_append,
    dropWhile_append_of_notNext isSpace_of_mem_replicate hComma,
    dropWhile_append_of_notNext isSpace_of_mem_replicate (tree.operand.notNext_isSpace rest)]

/-- A scanned separator is one comma with spaces around it. -/
theorem exists_of_scanSeparator? {text rest : List Char}
    (h : Call.scanSeparator? text = some rest) :
    ∃ before after : Nat,
      List.replicate before ' ' ++ ',' :: (List.replicate after ' ' ++ rest) = text := by
  unfold Call.scanSeparator? at h
  split at h
  next more hComma =>
    cases h
    refine ⟨(text.takeWhile Call.isSpace).length, (more.takeWhile Call.isSpace).length, ?_⟩
    rw [← takeWhile_isSpace_eq_replicate, ← takeWhile_isSpace_eq_replicate,
      List.takeWhile_append_dropWhile, ← hComma, List.takeWhile_append_dropWhile]
  next => cases h

/-- An operand ends where its separator or the closing parenthesis follows. -/
theorem notNext_continuesNumber (further : List FurtherTree) :
    NotNext continuesNumber (further.flatMap chars ++ [')']) := by
  cases further with
  | nil => simp [NotNext, continuesNumber]
  | cons tree further =>
      cases hSpaces : tree.spacesBefore with
      | zero => simp [NotNext, chars, separator, hSpaces, continuesNumber]
      | succ count =>
          simp [NotNext, chars, separator, hSpaces, List.replicate_succ, continuesNumber]

end FurtherTree

namespace CallTree

theorem scanOperands?_of_separator {read : List Operand} {text rest more : List Char}
    {operand : Operand} (hOperand : Operand.scan? text = some (operand, rest))
    (hSeparator : Call.scanSeparator? rest = some more) :
    Call.scanOperands? read text = Call.scanOperands? (operand :: read) more := by
  rw [Call.scanOperands?]
  split
  next hNone => simp [hOperand] at hNone
  next operand' rest' hSome =>
    rw [hOperand] at hSome
    cases hSome
    split
    next more' hMore =>
      rw [hSeparator] at hMore
      cases hMore
      rfl
    next hNone => simp [hSeparator] at hNone

theorem scanOperands?_of_end (read : List Operand) {text rest : List Char} {operand : Operand}
    (hOperand : Operand.scan? text = some (operand, rest))
    (hEnd : Call.scanSeparator? rest = none) :
    Call.scanOperands? read text = some ((operand :: read).reverse, rest) := by
  rw [Call.scanOperands?]
  split
  next hNone => simp [hOperand] at hNone
  next operand' rest' hSome =>
    rw [hOperand] at hSome
    cases hSome
    split
    next more hMore => simp [hEnd] at hMore
    next => rfl

/-- Derived operands are scanned one by one, up to the closing parenthesis. -/
theorem scanOperands?_append (read : List Operand) (first : OperandTree)
    (further : List FurtherTree) :
    Call.scanOperands? read (first.chars ++ (further.flatMap FurtherTree.chars ++ [')'])) =
      some (read.reverse ++ (first :: further.map FurtherTree.operand).map OperandTree.operand,
        [')']) := by
  induction further generalizing read first with
  | nil =>
      have hScan := first.scan?_append (FurtherTree.notNext_continuesNumber [])
      have hEnd : Call.scanSeparator? [')'] = none := rfl
      simpa using scanOperands?_of_end read hScan hEnd
  | cons tree further ih =>
      have hScan := first.scan?_append (FurtherTree.notNext_continuesNumber (tree :: further))
      rw [List.flatMap_cons, List.append_assoc] at hScan ⊢
      rw [scanOperands?_of_separator hScan (tree.scanSeparator?_append _), ih]
      simp

/-- Scanned operands are those of derivations, joined by derived separators. -/
theorem exists_of_scanOperands? {read operands : List Operand} {text rest : List Char}
    (h : Call.scanOperands? read text = some (operands, rest)) :
    ∃ (first : OperandTree) (further : List FurtherTree),
      read.reverse ++ (first :: further.map FurtherTree.operand).map OperandTree.operand =
        operands ∧
      first.chars ++ (further.flatMap FurtherTree.chars ++ rest) = text := by
  fun_induction Call.scanOperands? read text with
  | case1 => cases h
  | case2 read text operand rest hOperand more hSeparator ih =>
      obtain ⟨second, further, rfl, rfl⟩ := ih h
      obtain ⟨first, rfl, rfl⟩ := OperandTree.exists_of_scan? hOperand
      obtain ⟨before, after, rfl⟩ := FurtherTree.exists_of_scanSeparator? hSeparator
      exact ⟨first, ⟨before, after, second⟩ :: further, by simp,
        by simp [FurtherTree.chars, FurtherTree.separator]⟩
  | case3 read text operand rest hOperand hSeparator =>
      cases h
      obtain ⟨first, rfl, rfl⟩ := OperandTree.exists_of_scan? hOperand
      exact ⟨first, [], by simp, by simp⟩

theorem isUpper_of_mem_name {tree : CallTree} : ∀ c ∈ tree.name.val, c.isUpper = true :=
  fun c hc => isUpper_iff.mpr (tree.name.property.2 c hc)

/-- A derived call is read as the call that it spells. -/
theorem ofChars?_chars (tree : CallTree) : Call.ofChars? tree.chars = some tree.call := by
  have hName : NotNext Char.isUpper ('(' :: (tree.arguments ++ [')'])) := by
    simp [NotNext]
  have hScan := scanOperands?_append [] tree.first tree.further
  rw [Call.ofChars?, chars, takeWhile_append_of_notNext isUpper_of_mem_name hName,
    dropWhile_append_of_notNext isUpper_of_mem_name hName]
  simp [tree.name.property.1, arguments, hScan, call, operands]

/-- A text is read as a call exactly when a derivation derives it. -/
theorem ofChars?_eq_some_iff {text : List Char} {call : Call} :
    Call.ofChars? text = some call ↔ ∃ tree : CallTree, tree.chars = text ∧ tree.call = call := by
  constructor
  · intro h
    unfold Call.ofChars? at h
    dsimp only at h
    split at h
    next => cases h
    next hName =>
      split at h
      next arguments hOpen =>
        split at h
        next operands hScan =>
          cases h
          obtain ⟨first, further, hOperands, hText⟩ := exists_of_scanOperands? hScan
          have hUpper : ∀ c ∈ text.takeWhile Char.isUpper, 'A' ≤ c ∧ c ≤ 'Z' :=
            fun c hc => isUpper_iff.mp (mem_takeWhile hc)
          refine ⟨⟨⟨_, by simpa using hName, hUpper⟩, first, further⟩, ?_, ?_⟩
          · rw [chars, CallTree.arguments, List.append_assoc, hText, ← hOpen,
              List.takeWhile_append_dropWhile]
          · simp [CallTree.call, CallTree.operands, ← hOperands]
        next => cases h
      next => cases h
  · intro h
    obtain ⟨tree, rfl, rfl⟩ := h
    exact tree.ofChars?_chars

/-- An operand can be told from what follows it where neither digit nor point does. -/
theorem operand_append_inj {first first' : OperandTree} {rest rest' : List Char}
    (hRest : NotNext continuesNumber rest) (hRest' : NotNext continuesNumber rest')
    (h : first.chars ++ rest = first'.chars ++ rest') : first = first' ∧ rest = rest' := by
  have hScan := first.scan?_append hRest
  rw [h, first'.scan?_append hRest', Option.some.injEq, Prod.mk.injEq] at hScan
  exact ⟨(OperandTree.operand_injective hScan.1).symm, hScan.2.symm⟩

/-- The separators and operands behind the first operand can be told from their text. -/
theorem further_inj {further further' : List FurtherTree}
    (h : further.flatMap FurtherTree.chars ++ [')'] =
      further'.flatMap FurtherTree.chars ++ [')']) : further = further' := by
  induction further generalizing further' with
  | nil =>
      cases further' with
      | nil => rfl
      | cons tree' further' =>
          have hComma := congrArg (List.count ',') h
          simp [FurtherTree.chars, FurtherTree.separator] at hComma
  | cons tree further ih =>
      cases further' with
      | nil =>
          have hComma := congrArg (List.count ',') h
          simp [FurtherTree.chars, FurtherTree.separator] at hComma
      | cons tree' further' =>
          simp only [List.flatMap_cons, FurtherTree.chars, FurtherTree.separator,
            List.append_assoc, List.cons_append] at h
          have hComma : ∀ rest, NotNext Call.isSpace (',' :: rest) :=
            fun rest => by simp [NotNext, Call.isSpace]
          obtain ⟨hBefore, hFollowing⟩ := spaces_append_inj (hComma _) (hComma _) h
          obtain ⟨hAfter, hOperands⟩ := spaces_append_inj (tree.operand.notNext_isSpace _)
            (tree'.operand.notNext_isSpace _) (List.cons.inj hFollowing).2
          obtain ⟨hOperand, hRest⟩ := operand_append_inj
            (FurtherTree.notNext_continuesNumber further)
            (FurtherTree.notNext_continuesNumber further') hOperands
          rw [ih hRest, show tree = tree' from FurtherTree.ext hBefore hAfter hOperand]

/-- No text has two derivations as a call. -/
theorem chars_injective : Function.Injective chars := by
  intro first second h
  have hName : ∀ rest, NotNext Char.isUpper ('(' :: rest) := fun rest => by simp [NotNext]
  have hTake := congrArg (List.takeWhile Char.isUpper) h
  have hDrop := congrArg (List.dropWhile Char.isUpper) h
  rw [chars, chars, takeWhile_append_of_notNext isUpper_of_mem_name (hName _),
    takeWhile_append_of_notNext isUpper_of_mem_name (hName _)] at hTake
  rw [chars, chars, dropWhile_append_of_notNext isUpper_of_mem_name (hName _),
    dropWhile_append_of_notNext isUpper_of_mem_name (hName _)] at hDrop
  simp only [arguments, List.append_assoc, List.cons.injEq, true_and] at hDrop
  obtain ⟨hFirst, hFurther⟩ := operand_append_inj
    (FurtherTree.notNext_continuesNumber first.further)
    (FurtherTree.notNext_continuesNumber second.further) hDrop
  exact CallTree.ext (Subtype.ext hTake) hFirst (further_inj hFurther)

end CallTree

end PlainSheet
