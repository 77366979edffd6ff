import PlainSheet.Proofs.Grammar.Call

/-! The contents of cells by the grammar. Main result: calls are read exactly as they are
derived, and the numbers, references and formulas among the contents are three disjoint
languages outside of which every content is text. -/

namespace PlainSheet

/-- A whole text is read as a number exactly when a derivation of a number derives it. -/
theorem Numeral.ofChars?_eq_some_iff {text : List Char} {n : Numeral} :
    Numeral.ofChars? text = some n ↔
      ∃ tree : NumberTree, tree.chars = text ∧ tree.numeral = n := by
  constructor
  · intro h
    unfold Numeral.ofChars? at h
    split at h
    next m hScan =>
      cases h
      obtain ⟨tree, hNumeral, hChars⟩ := NumberTree.exists_of_scan? hScan
      exact ⟨tree, by simpa using hChars, hNumeral⟩
    next => cases h
  · intro h
    obtain ⟨tree, rfl, rfl⟩ := h
    have hScan := tree.scan?_append (notNext_nil _)
    rw [List.append_nil] at hScan
    rw [Numeral.ofChars?, hScan]

/-- A whole text is read as a reference exactly when a derivation of a cell derives it. -/
theorem Reference.ofChars?_eq_some_iff {text : List Char} {r : Reference} :
    Reference.ofChars? text = some r ↔
      ∃ tree : CellTree, tree.chars = text ∧ tree.reference = r := by
  constructor
  · intro h
    unfold Reference.ofChars? at h
    split at h
    next s hScan =>
      cases h
      obtain ⟨tree, hReference, hChars⟩ := CellTree.exists_of_scan? hScan
      exact ⟨tree, by simpa using hChars, hReference⟩
    next => cases h
  · intro h
    obtain ⟨tree, rfl, rfl⟩ := h
    have hScan := tree.scan?_append (notNext_nil _)
    rw [List.append_nil] at hScan
    rw [Reference.ofChars?, hScan]

theorem Function.ofName?_eq_some_iff {name : String} {f : Function} :
    Function.ofName? name = some f ↔ f.name = name := by
  constructor
  · exact Function.name_of_ofName?
  · rintro rfl
    exact Function.ofName?_name f

/-- A call is a formula when its name is that of a function and the function takes as many
operands as there are. -/
theorem Formula.ofCall?_eq_some_iff {call : Call} {f : Formula} :
    Formula.ofCall? call = some f ↔
      f.function.name = String.ofList call.name ∧
        f.function.arity.accepts call.operands.length = true ∧ call.operands = f.operands := by
  constructor
  · intro h
    unfold Formula.ofCall? at h
    split at h
    next g hName =>
      split at h
      next hAccepts =>
        cases h
        exact ⟨Function.ofName?_eq_some_iff.mp hName, hAccepts, rfl⟩
      next => cases h
    next => cases h
  · intro h
    obtain ⟨hName, hAccepts, hOperands⟩ := h
    rw [hOperands] at hAccepts
    simp [Formula.ofCall?, Function.ofName?_eq_some_iff.mpr hName, hOperands, hAccepts]

namespace CallTree

/-- A derivation calls a function when its name is that of the function and the function
takes as many operands. -/
def Calls (tree : CallTree) (f : Function) : Prop :=
  f.name = String.ofList tree.name.val ∧ f.arity.accepts tree.operands.length = true

/-- What stands behind the `=` is a formula exactly when a derivation of it calls a function. -/
theorem ofBody?_eq_some_iff {body : List Char} {f : Formula} :
    Formula.ofBody? body = some f ↔
      ∃ tree : CallTree, tree.chars = body ∧ tree.Calls f.function ∧
        tree.operands.map OperandTree.operand = f.operands := by
  have hLength : ∀ tree : CallTree, tree.call.operands.length = tree.operands.length :=
    fun tree => by simp [call]
  constructor
  · intro h
    unfold Formula.ofBody? at h
    split at h
    next call hCall =>
      obtain ⟨tree, hChars, rfl⟩ := ofChars?_eq_some_iff.mp hCall
      obtain ⟨hName, hAccepts, hOperands⟩ := Formula.ofCall?_eq_some_iff.mp h
      exact ⟨tree, hChars, ⟨hName, hLength tree ▸ hAccepts⟩, hOperands⟩
    next => cases h
  · intro h
    obtain ⟨tree, rfl, ⟨hName, hAccepts⟩, hOperands⟩ := h
    rw [Formula.ofBody?, tree.ofChars?_chars]
    exact Formula.ofCall?_eq_some_iff.mpr ⟨hName, (hLength tree).symm ▸ hAccepts, hOperands⟩

end CallTree

/-! A number starts with a sign or a digit and a cell with a letter, and of the three only
a call has a parenthesis. -/

theorem NumberTree.chars_ne_cell (number : NumberTree) (cell : CellTree) :
    number.chars ≠ cell.chars := by
  intro h
  have hNumber := number.scan?_append (notNext_nil _)
  rw [h, cell.scan?_numeral] at hNumber
  cases hNumber

theorem OperandTree.chars_ne_call (operand : OperandTree) (call : CallTree) :
    operand.chars ≠ call.chars := by
  intro h
  apply operand.not_mem_chars (c := '(') rfl
  simp [h, CallTree.chars]

theorem CellTree.numeral_ofChars?_chars (tree : CellTree) : Numeral.ofChars? tree.chars = none := by
  rw [Option.eq_none_iff_forall_ne_some]
  intro n hn
  obtain ⟨number, hNumber, -⟩ := Numeral.ofChars?_eq_some_iff.mp hn
  exact number.chars_ne_cell tree hNumber

theorem CallTree.numeral_ofChars?_chars (tree : CallTree) : Numeral.ofChars? tree.chars = none := by
  rw [Option.eq_none_iff_forall_ne_some]
  intro n hn
  obtain ⟨number, hNumber, -⟩ := Numeral.ofChars?_eq_some_iff.mp hn
  exact (OperandTree.number number).chars_ne_call tree hNumber

theorem CallTree.reference_ofChars?_chars (tree : CallTree) :
    Reference.ofChars? tree.chars = none := by
  rw [Option.eq_none_iff_forall_ne_some]
  intro r hr
  obtain ⟨cell, hCell, -⟩ := Reference.ofChars?_eq_some_iff.mp hr
  exact (OperandTree.cell cell).chars_ne_call tree hCell

namespace Content

/-- The contents `=` and a number. -/
def IsNumber (raw : String) : Prop := ∃ tree : NumberTree, raw.toList = '=' :: tree.chars

/-- The contents `=` and a cell. -/
def IsReference (raw : String) : Prop := ∃ tree : CellTree, raw.toList = '=' :: tree.chars

/-- The contents `=` and a call of a function with operands that it takes. -/
def IsFormula (raw : String) : Prop :=
  ∃ tree : CallTree, raw.toList = '=' :: tree.chars ∧ ∃ f : Function, tree.Calls f

theorem not_isNumber_and_isReference (raw : String) : ¬(IsNumber raw ∧ IsReference raw) := by
  intro h
  obtain ⟨⟨number, hNumber⟩, cell, hCell⟩ := h
  rw [hNumber, List.cons.injEq] at hCell
  exact number.chars_ne_cell cell hCell.2

theorem not_isNumber_and_isFormula (raw : String) : ¬(IsNumber raw ∧ IsFormula raw) := by
  intro h
  obtain ⟨⟨number, hNumber⟩, call, hCall, -⟩ := h
  rw [hNumber, List.cons.injEq] at hCall
  exact (OperandTree.number number).chars_ne_call call hCall.2

theorem not_isReference_and_isFormula (raw : String) : ¬(IsReference raw ∧ IsFormula raw) := by
  intro h
  obtain ⟨⟨cell, hCell⟩, call, hCall, -⟩ := h
  rw [hCell, List.cons.injEq] at hCall
  exact (OperandTree.cell cell).chars_ne_call call hCall.2

/-- A text that is a number by itself becomes one behind an `=` too. -/
theorem ofString_of_numeral {text : String} {n : Numeral} (h : Numeral.ofString? text = some n) :
    ofString ("=" ++ text) = number n := by
  have hRaw : ("=" ++ text).toList = '=' :: text.toList := by simp
  have hBody : Numeral.ofChars? text.toList = some n := h
  simp only [ofString, hRaw, hBody]

theorem ofString_of_number {raw : String} {tree : NumberTree}
    (h : raw.toList = '=' :: tree.chars) : ofString raw = number tree.numeral := by
  have hNumeral := Numeral.ofChars?_eq_some_iff.mpr ⟨tree, rfl, rfl⟩
  simp only [ofString, h, hNumeral]

/-- A cell is not a number, so the attempt to read one does not get in its way. -/
theorem ofString_of_cell {raw : String} {tree : CellTree} (h : raw.toList = '=' :: tree.chars) :
    ofString raw = reference tree.reference := by
  have hReference := Reference.ofChars?_eq_some_iff.mpr ⟨tree, rfl, rfl⟩
  simp only [ofString, h, tree.numeral_ofChars?_chars, hReference]

/-- A call is neither a number nor a cell, so it comes to the attempt to read a formula. -/
theorem ofString_of_call {raw : String} {tree : CallTree} {f : Function}
    (h : raw.toList = '=' :: tree.chars) (hCalls : tree.Calls f) :
    ofString raw = formula ⟨f, tree.operands.map OperandTree.operand⟩ := by
  have hFormula : Formula.ofBody? tree.chars = some ⟨f, tree.operands.map OperandTree.operand⟩ :=
    CallTree.ofBody?_eq_some_iff.mpr ⟨tree, rfl, hCalls, rfl⟩
  simp only [ofString, h, tree.numeral_ofChars?_chars, tree.reference_ofChars?_chars, hFormula]

/-- Each attempt that succeeds gives a derivation, so without any the content is text. -/
theorem ofString_of_none {raw : String} (hNumber : ¬IsNumber raw)
    (hReference : ¬IsReference raw) (hFormula : ¬IsFormula raw) : ofString raw = text raw := by
  unfold ofString
  split
  next body hRaw =>
    split
    next n hn =>
      obtain ⟨tree, rfl, -⟩ := Numeral.ofChars?_eq_some_iff.mp hn
      exact absurd ⟨tree, hRaw⟩ hNumber
    next =>
      split
      next r hr =>
        obtain ⟨tree, rfl, -⟩ := Reference.ofChars?_eq_some_iff.mp hr
        exact absurd ⟨tree, hRaw⟩ hReference
      next =>
        split
        next f hf =>
          obtain ⟨tree, rfl, hCalls, -⟩ := CallTree.ofBody?_eq_some_iff.mp hf
          exact absurd ⟨tree, hRaw, f.function, hCalls⟩ hFormula
        next => rfl
  next => rfl

/-- A content in which `=` does not occur is text. -/
theorem ofString_of_not_mem {raw : String} (h : '=' ∉ raw.toList) : ofString raw = text raw := by
  unfold ofString
  split
  next body hRaw => simp [hRaw] at h
  next => rfl

/-- A content is a number, a reference or a formula, or else it is text. -/
theorem ofString_cases (raw : String) :
    (∃ tree : NumberTree, raw.toList = '=' :: tree.chars ∧ ofString raw = number tree.numeral) ∨
      (∃ tree : CellTree,
        raw.toList = '=' :: tree.chars ∧ ofString raw = reference tree.reference) ∨
      (∃ (tree : CallTree) (f : Function), raw.toList = '=' :: tree.chars ∧ tree.Calls f ∧
        ofString raw = formula ⟨f, tree.operands.map OperandTree.operand⟩) ∨
      ofString raw = text raw := by
  by_cases hNumber : IsNumber raw
  · obtain ⟨tree, hRaw⟩ := hNumber
    exact .inl ⟨tree, hRaw, ofString_of_number hRaw⟩
  · by_cases hReference : IsReference raw
    · obtain ⟨tree, hRaw⟩ := hReference
      exact .inr (.inl ⟨tree, hRaw, ofString_of_cell hRaw⟩)
    · by_cases hFormula : IsFormula raw
      · obtain ⟨tree, hRaw, f, hCalls⟩ := hFormula
        exact .inr (.inr (.inl ⟨tree, f, hRaw, hCalls, ofString_of_call hRaw hCalls⟩))
      · exact .inr (.inr (.inr (ofString_of_none hNumber hReference hFormula)))

theorem ofString_eq_number_iff {raw : String} {n : Numeral} :
    ofString raw = number n ↔
      ∃ tree : NumberTree, raw.toList = '=' :: tree.chars ∧ tree.numeral = n := by
  constructor
  · intro h
    rcases ofString_cases raw with ⟨tree, hRaw, hKind⟩ | ⟨tree, -, hKind⟩ |
      ⟨tree, f, -, -, hKind⟩ | hKind
    · rw [hKind, number.injEq] at h
      exact ⟨tree, hRaw, h⟩
    all_goals simp [hKind] at h
  · intro h
    obtain ⟨tree, hRaw, rfl⟩ := h
    exact ofString_of_number hRaw

theorem ofString_eq_reference_iff {raw : String} {r : Reference} :
    ofString raw = reference r ↔
      ∃ tree : CellTree, raw.toList = '=' :: tree.chars ∧ tree.reference = r := by
  constructor
  · intro h
    rcases ofString_cases raw with ⟨tree, -, hKind⟩ | ⟨tree, hRaw, hKind⟩ |
      ⟨tree, f, -, -, hKind⟩ | hKind
    · simp [hKind] at h
    · rw [hKind, reference.injEq] at h
      exact ⟨tree, hRaw, h⟩
    all_goals simp [hKind] at h
  · intro h
    obtain ⟨tree, hRaw, rfl⟩ := h
    exact ofString_of_cell hRaw

/-- A content is a formula exactly when it is derived as a call of its function. -/
theorem ofString_eq_formula_iff {raw : String} {f : Formula} :
    ofString raw = formula f ↔
      ∃ tree : CallTree, raw.toList = '=' :: tree.chars ∧ tree.Calls f.function ∧
        tree.operands.map OperandTree.operand = f.operands := by
  constructor
  · intro h
    rcases ofString_cases raw with ⟨tree, -, hKind⟩ | ⟨tree, -, hKind⟩ |
      ⟨tree, g, hRaw, hCalls, hKind⟩ | hKind
    · simp [hKind] at h
    · simp [hKind] at h
    · rw [hKind, formula.injEq] at h
      subst h
      exact ⟨tree, hRaw, hCalls, rfl⟩
    · simp [hKind] at h
  · intro h
    obtain ⟨tree, hRaw, hCalls, hOperands⟩ := h
    rw [ofString_of_call hRaw hCalls, hOperands]

/-- Text is shown as it stands, and it is what belongs to none of the three languages. -/
theorem ofString_eq_text_iff {raw shown : String} :
    ofString raw = text shown ↔
      shown = raw ∧ ¬IsNumber raw ∧ ¬IsReference raw ∧ ¬IsFormula raw := by
  constructor
  · intro h
    have hNumber : ¬IsNumber raw := by
      intro hIs
      obtain ⟨tree, hRaw⟩ := hIs
      simp [ofString_of_number hRaw] at h
    have hReference : ¬IsReference raw := by
      intro hIs
      obtain ⟨tree, hRaw⟩ := hIs
      simp [ofString_of_cell hRaw] at h
    have hFormula : ¬IsFormula raw := by
      intro hIs
      obtain ⟨tree, hRaw, f, hCalls⟩ := hIs
      simp [ofString_of_call hRaw hCalls] at h
    rw [ofString_of_none hNumber hReference hFormula, text.injEq] at h
    exact ⟨h.symm, hNumber, hReference, hFormula⟩
  · intro h
    obtain ⟨rfl, hNumber, hReference, hFormula⟩ := h
    exact ofString_of_none hNumber hReference hFormula

/-- Calls are read exactly as the grammar derives them, and a text has one derivation at
most. The operands that are read off it have the values of their literals and the
addresses and texts of their cells. The contents that are numbers, references and formulas
are three disjoint languages, and every other content is text. -/
theorem grammar_exact :
    (∀ (body : String) (call : Call), Call.ofString? body = some call ↔
      ∃ tree : CallTree, tree.chars = body.toList ∧ call.name = tree.name.val ∧
        call.operands = tree.operands.map OperandTree.operand) ∧
    Function.Injective CallTree.chars ∧
    (∀ tree : NumberTree,
      tree.numeral.chars = tree.chars ∧ tree.numeral.value = tree.value) ∧
    (∀ tree : CellTree, tree.reference.text = String.ofList tree.chars ∧
      tree.reference.address = ⟨Address.saturate tree.row, Address.saturate tree.column⟩) ∧
    (∀ raw : String,
      (∀ n, ofString raw = number n ↔
        ∃ tree : NumberTree, raw.toList = '=' :: tree.chars ∧ tree.numeral = n) ∧
      (∀ r, ofString raw = reference r ↔
        ∃ tree : CellTree, raw.toList = '=' :: tree.chars ∧ tree.reference = r) ∧
      (∀ f, ofString raw = formula f ↔
        ∃ tree : CallTree, raw.toList = '=' :: tree.chars ∧ tree.Calls f.function ∧
          tree.operands.map OperandTree.operand = f.operands) ∧
      (∀ shown, ofString raw = text shown ↔
        shown = raw ∧ ¬IsNumber raw ∧ ¬IsReference raw ∧ ¬IsFormula raw) ∧
      ¬(IsNumber raw ∧ IsReference raw) ∧ ¬(IsNumber raw ∧ IsFormula raw) ∧
      ¬(IsReference raw ∧ IsFormula raw)) := by
  refine ⟨?_, CallTree.chars_injective, ?_, ?_, ?_⟩
  · intro body call
    rw [Call.ofString?, CallTree.ofChars?_eq_some_iff]
    constructor
    · intro h
      obtain ⟨tree, hChars, rfl⟩ := h
      exact ⟨tree, hChars, rfl, rfl⟩
    · intro h
      obtain ⟨tree, hChars, hName, hOperands⟩ := h
      refine ⟨tree, hChars, ?_⟩
      rw [CallTree.call, ← hName, ← hOperands]
  · exact fun tree => ⟨tree.numeral_chars, tree.numeral_value⟩
  · exact fun tree => ⟨rfl, tree.reference_address⟩
  · intro raw
    exact ⟨fun _ => ofString_eq_number_iff, fun _ => ofString_eq_reference_iff,
      fun _ => ofString_eq_formula_iff, fun _ => ofString_eq_text_iff,
      not_isNumber_and_isReference raw, not_isNumber_and_isFormula raw,
      not_isReference_and_isFormula raw⟩

end Content

end PlainSheet
