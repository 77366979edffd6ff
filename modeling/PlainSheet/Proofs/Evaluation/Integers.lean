import PlainSheet.Proofs.Evaluation.Results
import PlainSheet.Proofs.Number.Integers

/-! Formulas on integers. Main result: sums, products, differences and remainders of integers up to
2⁵³ are shown exactly, as long as no step of the formula leaves them. -/

namespace PlainSheet

open Binary64

namespace NumberTree

/-- The exact size of a number. -/
def size (tree : NumberTree) : ℚ := Nat.ofDigitChars 10 tree.digits 0 / 10 ^ tree.places

theorem holds_value {tree : NumberTree} {a : ℤ} (h : signed tree.minus tree.size = a)
    (hSmall : |a| ≤ 2 ^ 53) : Holds tree.numeral.value a := by
  have hRounded := isRounded_ofScientific tree.minus (Nat.ofDigitChars 10 tree.digits 0)
    (-(tree.places : ℤ))
  rw [zpow_neg, zpow_natCast, ← div_eq_mul_inv] at hRounded
  rw [numeral_value]
  exact holds_of_isRounded hRounded (div_nonneg (Nat.cast_nonneg _) (by positivity)) h hSmall

end NumberTree

/-- An operand is given as an integer of at most 2⁵³ in size: as a number of this exact value, or as
a cell that shows it. -/
inductive OperandTree.Gives (table : Table) (limit : Option Nat) : OperandTree → ℤ → Prop where
  | number {tree : NumberTree} {a : ℤ} (small : |a| ≤ 2 ^ 53)
      (exact : signed tree.minus tree.size = a) : Gives table limit (.number tree) a
  | cell {tree : CellTree} {a : ℤ} (small : |a| ≤ 2 ^ 53)
      (shown : table.evaluate limit (String.ofList ('=' :: tree.chars)) =
        some (.ok (toString a))) :
      Gives table limit (.cell tree) a

namespace OperandTree.Gives

variable {table : Table} {limit : Option Nat} {operand : OperandTree} {a : ℤ}

theorem small (h : Gives table limit operand a) : |a| ≤ 2 ^ 53 := by
  cases h with
  | number small exact => exact small
  | cell small shown => exact small

/-- A number without decimals gives the integer of its digits. -/
theorem of_digits {tree : NumberTree} (hSmall : |a| ≤ 2 ^ 53) (hPlaces : tree.places = 0)
    (hDigits : a = if tree.minus then -(Nat.ofDigitChars 10 tree.digits 0 : ℤ)
      else Nat.ofDigitChars 10 tree.digits 0) : Gives table limit (.number tree) a := by
  refine .number hSmall ?_
  rw [NumberTree.size, hPlaces, pow_zero, div_one, hDigits, signed]
  split <;> simp

end OperandTree.Gives

/-- The value that an integer is read as. -/
def Binary64.ofInt (a : ℤ) : Binary64 := ofShown (toString a)

namespace Function

variable {f : Function} {op : ℤ → ℤ → ℤ}

/-- A fold whose steps are exact on integers up to 2⁵³ is exact as long as no step leaves them. -/
theorem holds_foldl
    (hStep : ∀ {x y a b}, Holds x a → Holds y b → |op a b| ≤ 2 ^ 53 → Holds (f.apply x y) (op a b))
    {values : List ℤ} (hSmall : ∀ a ∈ values, |a| ≤ 2 ^ 53) {x : Binary64} {first : ℤ}
    (hFirst : Holds x first) (hPartial : ∀ count, |(values.take count).foldl op first| ≤ 2 ^ 53) :
    Holds ((values.map ofInt).foldl f.apply x) (values.foldl op first) := by
  induction values generalizing x first with
  | nil => exact hFirst
  | cons a values ih =>
      obtain ⟨hValue, hOthers⟩ := List.forall_mem_cons.mp hSmall
      rw [List.map_cons, List.foldl_cons, List.foldl_cons]
      apply ih hOthers
      · exact hStep hFirst (holds_ofShown hValue) (by simpa using hPartial 1)
      · exact fun count => by simpa using hPartial (count + 1)

end Function

namespace Table

open Evaluation

variable {table : Table} {limit : Option Nat} {tree : CallTree} {values : List ℤ} {raw : String}

theorem small_of_gives (h : List.Forall₂ (OperandTree.Gives table limit) tree.operands values) :
    ∀ a ∈ values, |a| ≤ 2 ^ 53 := by
  intro a hMem
  obtain ⟨place, hPlace, rfl⟩ := List.mem_iff_getElem.mp hMem
  have hOperand : place < tree.operands.length := h.length_eq ▸ hPlace
  exact (h.get hOperand hPlace).small

/-- A call is folded over the integers that its operands are given as. -/
theorem evaluate_of_gives {f : Function} (hRaw : raw.toList = '=' :: tree.chars)
    (hGives : List.Forall₂ (OperandTree.Gives table limit) tree.operands values)
    (hName : String.ofList tree.name.val = f.name)
    (hAccepts : f.arity.accepts values.length = true) :
    table.evaluate limit raw = some (.ok (f.fold (values.map ofInt)).display) := by
  have hCalls : tree.Calls f := ⟨hName.symm, hGives.length_eq ▸ hAccepts⟩
  let inside := shownWithin table (.chainTooLong 0) (limit.getD table.cellCount)
  have hOperands : (tree.operands.map OperandTree.operand).mapM (operandValue table inside) =
      .ok (values.map ofInt) := by
    rw [mapM_eq_ok_iff, List.forall₂_map_left_iff, List.forall₂_map_right_iff]
    refine hGives.imp fun operand a hOperand => ?_
    cases hOperand with
    | number hSmall hExact =>
        rw [OperandTree.operand, operandValue_numeral,
          (NumberTree.holds_value hExact hSmall).display]
        rfl
    | @cell cell _ hSmall hShown =>
        have hContent : Content.ofString (String.ofList ('=' :: cell.chars)) =
            .reference cell.reference := Content.ofString_of_cell String.toList_ofList
        rw [evaluate_eq_ok_iff_shownWithin (.chainTooLong 0), shownWithin, shown, hContent]
          at hShown
        exact operandValue_of_ok hShown
  rw [evaluate_eq_ok_iff_shownWithin (.chainTooLong 0), shownWithin, shown,
    Content.ofString_of_call hRaw hCalls]
  dsimp only
  rw [hOperands]
  rfl

theorem evaluate_foldl {f : Function} {op : ℤ → ℤ → ℤ} {first : ℤ}
    (hStep : ∀ {x y a b}, Holds x a → Holds y b → |op a b| ≤ 2 ^ 53 → Holds (f.apply x y) (op a b))
    (hRaw : raw.toList = '=' :: tree.chars)
    (hGives : List.Forall₂ (OperandTree.Gives table limit) tree.operands (first :: values))
    (hName : String.ofList tree.name.val = f.name)
    (hAccepts : f.arity.accepts (first :: values).length = true)
    (hPartial : ∀ count, |(values.take count).foldl op first| ≤ 2 ^ 53) :
    table.evaluate limit raw = some (.ok (toString (values.foldl op first))) := by
  obtain ⟨hFirst, hOthers⟩ := List.forall_mem_cons.mp (small_of_gives hGives)
  rw [evaluate_of_gives hRaw hGives hName hAccepts,
    ← (Function.holds_foldl hStep hOthers (holds_ofShown hFirst) hPartial).display]
  rfl

/-- Formulas on integers up to 2⁵³, each given as a number or as a cell that shows it. Sums and
products of any length are exact if none of their parts from the left is larger than 2⁵³, and so is
a difference that is no larger itself. The remainder that goes with the quotient rounded down is
exact for every divisor but zero. Zero has no sign in any of them. -/
theorem evaluate_integers (hRaw : raw.toList = '=' :: tree.chars)
    (hGives : List.Forall₂ (OperandTree.Gives table limit) tree.operands values) :
    (String.ofList tree.name.val = "ADD" → 2 ≤ values.length →
      (∀ count, |(values.take count).sum| ≤ 2 ^ 53) →
      table.evaluate limit raw = some (.ok (toString values.sum))) ∧
    (String.ofList tree.name.val = "MULTIPLY" → 2 ≤ values.length →
      (∀ count, |(values.take count).prod| ≤ 2 ^ 53) →
      table.evaluate limit raw = some (.ok (toString values.prod))) ∧
    (String.ofList tree.name.val = "SUBTRACT" → ∀ a b, values = [a, b] → |a - b| ≤ 2 ^ 53 →
      table.evaluate limit raw = some (.ok (toString (a - b)))) ∧
    (String.ofList tree.name.val = "MOD" → ∀ a b, values = [a, b] → b ≠ 0 →
      table.evaluate limit raw = some (.ok (toString (a - b * ⌊(a / b : ℚ)⌋)))) ∧
    toString (0 : ℤ) = "0" := by
  have hSmall := small_of_gives hGives
  refine ⟨?_, ?_, ?_, ?_, rfl⟩
  · intro hName hTwo hPartial
    cases values with
    | nil => cases hTwo
    | cons first others =>
        have hSum : ∀ values : List ℤ, (first :: values).sum = values.foldl (· + ·) first :=
          fun _ => List.foldl_eq_apply_foldr.symm
        rw [hSum]
        apply evaluate_foldl (f := .add) Holds.add hRaw hGives hName (decide_eq_true hTwo)
        intro count
        rw [← hSum]
        exact hPartial (count + 1)
  · intro hName hTwo hPartial
    cases values with
    | nil => cases hTwo
    | cons first others =>
        have hProduct : ∀ values : List ℤ, (first :: values).prod = values.foldl (· * ·) first :=
          fun _ => List.foldl_eq_apply_foldr.symm
        rw [hProduct]
        apply evaluate_foldl (f := .multiply) Holds.mul hRaw hGives hName (decide_eq_true hTwo)
        intro count
        rw [← hProduct]
        exact hPartial (count + 1)
  · rintro hName a b rfl hResult
    have hFirst := holds_ofShown (hSmall a (by simp))
    have hSecond := holds_ofShown (hSmall b (by simp))
    rw [evaluate_of_gives hRaw hGives (f := .subtract) hName rfl,
      ← (hFirst.sub hSecond hResult).display]
    rfl
  · rintro hName a b rfl hDivisor
    have hFirst := holds_ofShown (hSmall a (by simp))
    have hDivisorSmall := hSmall b (by simp)
    have hSecond := holds_ofShown hDivisorSmall
    rw [evaluate_of_gives hRaw hGives (f := .mod) hName rfl,
      ← (hFirst.flooredRem hSecond hDivisor hDivisorSmall).display]
    rfl

/-- A sum that starts and ends at 2⁵³, and a remainder of a number below zero. -/
theorem evaluate_integers_at_limit :
    let table : Table := ⟨[["7"]]⟩
    table.evaluate none "=ADD(9007199254740992,-7,A1)" = some (.ok "9007199254740992") ∧
      table.evaluate none "=MOD(-1,A1)" = some (.ok "6") := by
  intro table
  let limit : NumberTree :=
    .fromOne false ⟨'9', by decide⟩ (digitsNext "007199254740992".toList) none
  let minusSeven : NumberTree := .fromOne true ⟨'7', by decide⟩ (digitsNext []) none
  let minusOne : NumberTree := .fromOne true ⟨'1', by decide⟩ (digitsNext []) none
  let corner : CellTree := ⟨⟨['A'], by simp, by simp⟩, ⟨'1', by decide⟩, digitsNext []⟩
  have hCorner : OperandTree.Gives table none (.cell corner) 7 := by
    refine .cell (by norm_num) ?_
    rw [evaluate_eq_ok_iff_shownWithin (.chainTooLong 0)]
    decide +kernel
  have hLimit : OperandTree.Gives table none (.number limit) 9007199254740992 :=
    .of_digits (by norm_num) rfl rfl
  have hMinusSeven : OperandTree.Gives table none (.number minusSeven) (-7) :=
    .of_digits (by norm_num) rfl rfl
  have hMinusOne : OperandTree.Gives table none (.number minusOne) (-1) :=
    .of_digits (by norm_num) rfl rfl
  let sum : CallTree := ⟨⟨['A', 'D', 'D'], by simp, by simp⟩, .number limit,
    [⟨0, 0, .number minusSeven⟩, ⟨0, 0, .cell corner⟩]⟩
  let remainder : CallTree := ⟨⟨['M', 'O', 'D'], by simp, by simp⟩, .number minusOne,
    [⟨0, 0, .cell corner⟩]⟩
  have hSumRaw : "=ADD(9007199254740992,-7,A1)".toList = '=' :: sum.chars := rfl
  have hRemainderRaw : "=MOD(-1,A1)".toList = '=' :: remainder.chars := rfl
  have hSum := evaluate_integers hSumRaw (.cons hLimit (.cons hMinusSeven (.cons hCorner .nil)))
  have hRemainder := evaluate_integers hRemainderRaw (.cons hMinusOne (.cons hCorner .nil))
  constructor
  · apply (hSum.1 rfl (by decide) ?_).trans rfl
    intro count
    rcases count with _ | _ | _ | count <;> norm_num
  · apply (hRemainder.2.2.2.1 rfl (-1) 7 rfl (by decide)).trans
    have hFloor : ⌊((-1 : ℤ) / (7 : ℤ) : ℚ)⌋ = -1 := by norm_num [Int.floor_eq_iff]
    rw [hFloor]
    rfl

end Table

end PlainSheet
