import PlainSheet.Formula.Check
import PlainSheet.Proofs.Grammar.Content

/-! What the checks of a content find. They count arguments by commas and parentheses,
without the grammar. Main result: a content passes them exactly when it is no text, and
the fault of a derived call is its name or its number of operands. -/

namespace PlainSheet.Check

/-- A derived call is split at the parenthesis behind its name. -/
theorem splitCall?_chars (tree : CallTree) :
    splitCall? tree.chars = some (tree.name.val, tree.arguments ++ [')']) := by
  have hName : ∀ c ∈ tree.name.val, (c != '(') = true := by
    intro c hc
    rw [bne_iff_ne]
    rintro rfl
    exact absurd (tree.name.property.2 '(' hc) (by decide)
  have hOpen : NotNext (· != '(') ('(' :: (tree.arguments ++ [')'])) := by simp [NotNext]
  rw [splitCall?, CallTree.chars, dropWhile_append_of_notNext hName hOpen,
    takeWhile_append_of_notNext hName hOpen]

theorem beforeLastClosing?_append (text : List Char) :
    beforeLastClosing? (text ++ [')']) = some text := by
  simp [beforeLastClosing?]

/-- No comma stands inside an operand. -/
theorem count_comma_operand (tree : OperandTree) : tree.chars.count ',' = 0 :=
  List.count_eq_zero.mpr (tree.not_mem_chars rfl)

/-- Every operand behind the first one brings one comma with it. -/
theorem count_comma_further (further : List FurtherTree) :
    (further.flatMap FurtherTree.chars).count ',' = further.length := by
  induction further with
  | nil => rfl
  | cons tree further ih =>
      have hTree : tree.chars.count ',' = 1 := by
        simp [FurtherTree.chars, FurtherTree.separator, List.count_replicate, count_comma_operand]
      rw [List.flatMap_cons, List.count_append, hTree, ih, List.length_cons]
      omega

/-- The commas of a derived call tell how many operands it has. -/
theorem argumentCount_arguments (tree : CallTree) :
    argumentCount (tree.arguments ++ [')']) = tree.operands.length := by
  have hCommas : tree.arguments.count ',' + 1 = tree.operands.length := by
    simp [CallTree.arguments, CallTree.operands, count_comma_operand, count_comma_further]
  have hSome : tree.arguments ≠ [] := by
    simp [CallTree.arguments, tree.first.chars_ne_nil]
  rw [argumentCount, beforeLastClosing?_append]
  split
  next h => cases h
  next h => exact absurd (Option.some.inj h) hSome
  next text hText =>
    cases hText
    exact hCommas

section Call

variable {tree : CallTree}

/-- A derived call passes the last check, so the first two decide. -/
theorem body_chars (tree : CallTree) :
    body tree.chars = (do functionName tree.chars; arguments tree.chars) := by
  simp only [body, expression, tree.ofChars?_chars]
  cases functionName tree.chars with
  | error cause => rfl
  | ok => cases arguments tree.chars <;> rfl

/-- An unknown name is reported before the operands are counted. -/
theorem body_of_unknown (hUnknown : ∀ f : Function, f.name ≠ String.ofList tree.name.val) :
    body tree.chars = .error (.unknownFunction (String.ofList tree.name.val)) := by
  have hFunction : Function.ofName? (String.ofList tree.name.val) = none := by
    rw [Option.eq_none_iff_forall_ne_some]
    intro f hf
    exact hUnknown f (Function.ofName?_eq_some_iff.mp hf)
  have hName : functionName tree.chars =
      .error (.unknownFunction (String.ofList tree.name.val)) := by
    simp [functionName, splitCall?_chars, hFunction, tree.name.property.1]
  rw [body_chars, hName]
  rfl

theorem functionName_of_known {f : Function} (hKnown : f.name = String.ofList tree.name.val) :
    functionName tree.chars = .ok () := by
  simp [functionName, splitCall?_chars, Function.ofName?_eq_some_iff.mpr hKnown]

/-- With a known name only the number of operands can be at fault. -/
theorem arguments_of_known {f : Function} (hKnown : f.name = String.ofList tree.name.val) :
    arguments tree.chars =
      if f.arity.accepts tree.operands.length then .ok ()
      else .error (.wrongArgumentCount f.name f.arity tree.operands.length) := by
  simp only [arguments, splitCall?_chars, Function.ofName?_eq_some_iff.mpr hKnown,
    argumentCount_arguments, hKnown]

theorem body_of_calls {f : Function} (hCalls : tree.Calls f) : body tree.chars = .ok () := by
  rw [body_chars, functionName_of_known hCalls.1, arguments_of_known hCalls.1, if_pos hCalls.2]
  rfl

theorem body_of_miscounted {f : Function} (hKnown : f.name = String.ofList tree.name.val)
    (hCount : f.arity.accepts tree.operands.length = false) :
    body tree.chars = .error (.wrongArgumentCount f.name f.arity tree.operands.length) := by
  rw [body_chars, functionName_of_known hKnown, arguments_of_known hKnown, hCount]
  rfl

/-- The name of a derived call is unknown, or that of one function which takes its operands
or does not. -/
theorem call_cases (tree : CallTree) :
    (∀ f : Function, f.name ≠ String.ofList tree.name.val) ∨
      ∃ f : Function, f.name = String.ofList tree.name.val ∧
        (∀ g : Function, g.name = String.ofList tree.name.val ↔ g = f) ∧
        (tree.Calls f ∨ f.arity.accepts tree.operands.length = false) := by
  cases hFunction : Function.ofName? (String.ofList tree.name.val) with
  | none =>
      left
      intro f hf
      rw [Function.ofName?_eq_some_iff.mpr hf] at hFunction
      cases hFunction
  | some f =>
      have hName := Function.ofName?_eq_some_iff.mp hFunction
      refine .inr ⟨f, hName, ?_, ?_⟩
      · intro g
        rw [← Function.ofName?_eq_some_iff, hFunction, Option.some.injEq, eq_comm]
      · cases hAccepts : f.arity.accepts tree.operands.length with
        | true => exact .inl ⟨hName, hAccepts⟩
        | false => exact .inr rfl

/-- The name that is reported is the one that was called, and no function has it. -/
theorem body_eq_unknownFunction_iff {name : String} :
    body tree.chars = .error (.unknownFunction name) ↔
      name = String.ofList tree.name.val ∧ ∀ f : Function, f.name ≠ name := by
  rcases call_cases tree with hUnknown | ⟨f, hKnown, -, hCalls | hCount⟩
  · rw [body_of_unknown hUnknown]
    simp only [Except.error.injEq, SheetError.unknownFunction.injEq, eq_comm (b := name)]
    exact ⟨fun h => ⟨h, h ▸ hUnknown⟩, And.left⟩
  · simp only [body_of_calls hCalls, reduceCtorEq, false_iff]
    intro h
    exact h.2 f (hKnown.trans h.1.symm)
  · simp only [body_of_miscounted hKnown hCount, Except.error.injEq, reduceCtorEq, false_iff]
    intro h
    exact h.2 f (hKnown.trans h.1.symm)

/-- What is reported is the function that was called, what it takes and what it was given. -/
theorem body_eq_wrongArgumentCount_iff {name : String} {arity : Arity} {got : Nat} :
    body tree.chars = .error (.wrongArgumentCount name arity got) ↔
      name = String.ofList tree.name.val ∧ got = tree.operands.length ∧
        ∃ f : Function, f.name = name ∧ f.arity = arity ∧ f.arity.accepts got = false := by
  rcases call_cases tree with hUnknown | ⟨f, hKnown, hOnly, hCalls | hCount⟩
  · simp only [body_of_unknown hUnknown, Except.error.injEq, reduceCtorEq, false_iff]
    intro h
    obtain ⟨rfl, -, f, hf, -⟩ := h
    exact hUnknown f hf
  · simp only [body_of_calls hCalls, reduceCtorEq, false_iff]
    intro h
    obtain ⟨rfl, rfl, g, hg, -, hRejects⟩ := h
    rw [(hOnly g).mp hg, hCalls.2] at hRejects
    cases hRejects
  · rw [body_of_miscounted hKnown hCount]
    simp only [Except.error.injEq, SheetError.wrongArgumentCount.injEq]
    constructor
    · intro h
      obtain ⟨rfl, rfl, rfl⟩ := h
      exact ⟨hKnown, rfl, f, rfl, rfl, hCount⟩
    · intro h
      obtain ⟨rfl, rfl, g, hg, rfl, -⟩ := h
      rw [(hOnly g).mp hg]
      exact ⟨hKnown, rfl, rfl⟩

/-- A derived call passes exactly when it calls a function. -/
theorem body_eq_ok_iff : body tree.chars = .ok () ↔ ∃ f : Function, tree.Calls f := by
  rcases call_cases tree with hUnknown | ⟨f, hKnown, hOnly, hCalls | hCount⟩
  · simp [body_of_unknown hUnknown, CallTree.Calls, hUnknown]
  · exact ⟨fun _ => ⟨f, hCalls⟩, fun _ => body_of_calls hCalls⟩
  · simp only [body_of_miscounted hKnown hCount, reduceCtorEq, false_iff]
    intro h
    obtain ⟨g, hg, hAccepts⟩ := h
    rw [(hOnly g).mp hg, hCount] at hAccepts
    cases hAccepts

/-- The last check reports texts that the grammar does not derive, which a derived call is not. -/
theorem body_ne_invalidExpression {expression : String} :
    body tree.chars ≠ .error (.invalidExpression expression) := by
  rcases call_cases tree with hUnknown | ⟨f, hKnown, -, hCalls | hCount⟩
  · simp [body_of_unknown hUnknown]
  · simp [body_of_calls hCalls]
  · simp [body_of_miscounted hKnown hCount]

end Call

/-- Only a derived call passes the last check. -/
theorem exists_of_body_eq_ok {text : List Char} (h : body text = .ok ()) :
    ∃ tree : CallTree, tree.chars = text := by
  cases hCall : Call.ofChars? text with
  | some call =>
      obtain ⟨tree, hChars, -⟩ := CallTree.ofChars?_eq_some_iff.mp hCall
      exact ⟨tree, hChars⟩
  | none =>
      -- Without a derivation the last check fails, if the others have not.
      have hExpression : expression text = .error (.invalidExpression (String.ofList text)) := by
        rw [expression, hCall]
      unfold body at h
      rw [hExpression] at h
      cases hName : functionName text with
      | error cause =>
          rw [hName] at h
          cases h
      | ok =>
          cases hArguments : arguments text with
          | error cause =>
              rw [hName, hArguments] at h
              cases h
          | ok =>
              rw [hName, hArguments] at h
              cases h

section Content

variable {raw : String}

theorem content_of_number {tree : NumberTree} (h : raw.toList = '=' :: tree.chars) :
    content raw = .ok () := by
  simp [content, h, Numeral.ofChars?_eq_some_iff.mpr ⟨tree, rfl, rfl⟩]

theorem content_of_cell {tree : CellTree} (h : raw.toList = '=' :: tree.chars) :
    content raw = .ok () := by
  simp [content, h, Reference.ofChars?_eq_some_iff.mpr ⟨tree, rfl, rfl⟩]

theorem content_of_call {tree : CallTree} (h : raw.toList = '=' :: tree.chars) :
    content raw = body tree.chars := by
  simp [content, h, tree.numeral_ofChars?_chars, tree.reference_ofChars?_chars]

/-- A text that passed would have a derivation, and so it would not be text. -/
theorem content_of_text {text : List Char} (h : raw.toList = '=' :: text)
    (hText : Content.ofString raw = .text raw) : content raw ≠ .ok () := by
  obtain ⟨-, hNumber, hReference, hFormula⟩ := Content.ofString_eq_text_iff.mp hText
  intro hContent
  have hNumeral : Numeral.ofChars? text = none := by
    rw [Option.eq_none_iff_forall_ne_some]
    intro n hn
    obtain ⟨tree, rfl, -⟩ := Numeral.ofChars?_eq_some_iff.mp hn
    exact hNumber ⟨tree, h⟩
  have hCell : Reference.ofChars? text = none := by
    rw [Option.eq_none_iff_forall_ne_some]
    intro r hr
    obtain ⟨tree, rfl, -⟩ := Reference.ofChars?_eq_some_iff.mp hr
    exact hReference ⟨tree, h⟩
  have hBody : body text = .ok () := by
    simpa [content, h, hNumeral, hCell] using hContent
  obtain ⟨tree, rfl⟩ := exists_of_body_eq_ok hBody
  exact hFormula ⟨tree, h, body_eq_ok_iff.mp hBody⟩

/-- Behind an `=`, the checks pass exactly the contents that are not text. -/
theorem content_eq_ok_iff {text : List Char} (h : raw.toList = '=' :: text) :
    content raw = .ok () ↔ ∀ shown, Content.ofString raw ≠ .text shown := by
  rcases Content.ofString_cases raw with ⟨tree, hRaw, hKind⟩ | ⟨tree, hRaw, hKind⟩ |
    ⟨tree, f, hRaw, hCalls, hKind⟩ | hKind
  · simp [content_of_number hRaw, hKind]
  · simp [content_of_cell hRaw, hKind]
  · simp [content_of_call hRaw, body_of_calls hCalls, hKind]
  · simp [content_of_text h hKind, hKind]

/-- What does not pass the checks is text. -/
theorem ofString_of_content_eq_error {cause : SheetError} (h : content raw = .error cause) :
    Content.ofString raw = .text raw := by
  have hFormula : ∃ text, raw.toList = '=' :: text := by
    unfold content at h
    split at h
    next text hRaw => exact ⟨text, hRaw⟩
    next => cases h
  obtain ⟨text, hRaw⟩ := hFormula
  by_contra hText
  have hPasses : content raw = .ok () := by
    rw [content_eq_ok_iff hRaw]
    intro shown hShown
    obtain ⟨rfl, -⟩ := Content.ofString_eq_text_iff.mp hShown
    exact hText hShown
  rw [h] at hPasses
  cases hPasses

end Content

/-- The checks agree with the grammar. A content after `=` passes them exactly when it is
no text. When it is a call, it has an unknown name, or a known one with a number of operands
that the function does not take, or else it passes. -/
theorem content_agrees (text : String) :
    (content ("=" ++ text) = .ok () ↔ ∀ shown, Content.ofString ("=" ++ text) ≠ .text shown) ∧
    ∀ call, Call.ofString? text = some call →
      (∀ name, content ("=" ++ text) = .error (.unknownFunction name) ↔
        name = String.ofList call.name ∧ ∀ f : Function, f.name ≠ name) ∧
      (∀ name arity got, content ("=" ++ text) = .error (.wrongArgumentCount name arity got) ↔
        name = String.ofList call.name ∧ got = call.operands.length ∧
          ∃ f : Function, f.name = name ∧ f.arity = arity ∧ f.arity.accepts got = false) ∧
      (content ("=" ++ text) = .ok () ↔ ∃ f : Function,
        f.name = String.ofList call.name ∧ f.arity.accepts call.operands.length = true) ∧
      ∀ expression, content ("=" ++ text) ≠ .error (.invalidExpression expression) := by
  have hRaw : ("=" ++ text).toList = '=' :: text.toList := by simp
  refine ⟨content_eq_ok_iff hRaw, ?_⟩
  intro call hCall
  obtain ⟨tree, hChars, rfl⟩ := CallTree.ofChars?_eq_some_iff.mp hCall
  have hLength : tree.call.operands.length = tree.operands.length := by simp [CallTree.call]
  rw [content_of_call (hChars ▸ hRaw), hLength]
  exact ⟨fun _ => body_eq_unknownFunction_iff, fun _ _ _ => body_eq_wrongArgumentCount_iff,
    body_eq_ok_iff, fun _ => body_ne_invalidExpression⟩

theorem content_agrees_on_three_operands :
    Call.ofString? "MOD(B2 , 7,-0.)" = some ⟨['M', 'O', 'D'],
      [.cell ⟨['B'], ['2']⟩, .numeral ⟨false, ['7'], none⟩, .numeral ⟨true, ['0'], some []⟩]⟩ ∧
    content "=MOD(B2 , 7,-0.)" = .error (.wrongArgumentCount "MOD" (.exactly 2) 3) := by
  have hCall : Call.ofString? "MOD(B2 , 7,-0.)" = some ⟨['M', 'O', 'D'],
      [.cell ⟨['B'], ['2']⟩, .numeral ⟨false, ['7'], none⟩, .numeral ⟨true, ['0'], some []⟩]⟩ := by
    decide +kernel
  have hCount := ((content_agrees "MOD(B2 , 7,-0.)").2 _ hCall).2.1 "MOD" (.exactly 2) 3
  exact ⟨hCall, hCount.mpr ⟨by decide, rfl, .mod, rfl, rfl, rfl⟩⟩

end PlainSheet.Check
