import PlainSheet.Formula.Content

/-!
The grammar of formulas by its derivation trees:

* `call ::= [A-Z]+ '(' operand (' '* ',' ' '* operand)* ')'`
* `operand ::= number | cell`
* `number ::= '0' | '-'? '0.' [0-9]* | '-'? [1-9] [0-9]* ('.' [0-9]*)?`
* `cell ::= [A-Z]+ [1-9] [0-9]*`

A tree is one way to derive a text, its `chars`. What the text stands for is read off
the tree alone, without a scanner.
-/

namespace PlainSheet

/-- One character of a range, `[a-z]`. -/
abbrev RangeChar (first last : Char) : Type := { c : Char // first ≤ c ∧ c ≤ last }

/-- Any number of characters of a range, `[a-z]*`. -/
abbrev RangeRun (first last : Char) : Type :=
  { chars : List Char // ∀ c ∈ chars, first ≤ c ∧ c ≤ last }

/-- At least one character of a range, `[a-z]+`. -/
abbrev RangeWord (first last : Char) : Type :=
  { chars : List Char // chars ≠ [] ∧ ∀ c ∈ chars, first ≤ c ∧ c ≤ last }

inductive NumberTree where
  -- '0'
  | zero
  -- '-'? '0.' [0-9]*
  | belowOne (minus : Bool) (decimals : RangeRun '0' '9')
  -- '-'? [1-9] [0-9]* ('.' [0-9]*)?
  | fromOne (minus : Bool) (leading : RangeChar '1' '9') (digits : RangeRun '0' '9')
      (decimals : Option (RangeRun '0' '9'))

namespace NumberTree

def chars : NumberTree → List Char
  | zero => ['0']
  | belowOne minus decimals => Numeral.signChars minus ++ '0' :: '.' :: decimals.val
  | fromOne minus leading digits decimals =>
      Numeral.signChars minus ++
        leading.val :: (digits.val ++ Numeral.fractionChars decimals.unattach)

def numeral : NumberTree → Numeral
  | zero => ⟨false, ['0'], none⟩
  | belowOne minus decimals => ⟨minus, ['0'], some decimals.val⟩
  | fromOne minus leading digits decimals =>
      ⟨minus, leading.val :: digits.val, decimals.unattach⟩

def minus : NumberTree → Bool
  | zero => false
  | belowOne minus _ => minus
  | fromOne minus _ _ _ => minus

/-- All digits in order, without the point. -/
def digits : NumberTree → List Char
  | zero => ['0']
  | belowOne _ decimals => '0' :: decimals.val
  | fromOne _ leading digits decimals =>
      leading.val :: (digits.val ++ decimals.unattach.getD [])

/-- How many digits stand after the point. -/
def places : NumberTree → Nat
  | zero => 0
  | belowOne _ decimals => decimals.val.length
  | fromOne _ _ _ decimals => (decimals.unattach.getD []).length

/-- The value of a literal: its digits as one decimal number, lowered by a power of ten
for each digit after the point and rounded once. -/
def value (tree : NumberTree) : Binary64 :=
  Binary64.ofScientific tree.minus (Nat.ofDigitChars 10 tree.digits 0) (-(tree.places : Int))

end NumberTree

structure CellTree where
  letters : RangeWord 'A' 'Z'
  leading : RangeChar '1' '9'
  digits : RangeRun '0' '9'

namespace CellTree

def chars (tree : CellTree) : List Char :=
  tree.letters.val ++ tree.leading.val :: tree.digits.val

def reference (tree : CellTree) : Reference :=
  ⟨tree.letters.val, tree.leading.val :: tree.digits.val⟩

/-- The row without any bound. -/
def row (tree : CellTree) : Nat :=
  Nat.ofDigitChars 10 (tree.leading.val :: tree.digits.val) 0

/-- The column without any bound, in the numbers of base 26 whose digits go from `A`, one,
to `Z`, twenty-six. -/
def column (tree : CellTree) : Nat :=
  tree.letters.val.foldl (fun column c => column * 26 + (c.toNat - 'A'.toNat + 1)) 0

end CellTree

inductive OperandTree where
  | number (tree : NumberTree)
  | cell (tree : CellTree)

namespace OperandTree

def chars : OperandTree → List Char
  | number tree => tree.chars
  | cell tree => tree.chars

def operand : OperandTree → Operand
  | number tree => .numeral tree.numeral
  | cell tree => .cell tree.reference

end OperandTree

/-- The derivations of one repetition of `' '* ',' ' '* operand`. -/
@[ext]
structure FurtherTree where
  spacesBefore : Nat
  spacesAfter : Nat
  operand : OperandTree

namespace FurtherTree

/-- The comma and the spaces around it. -/
def separator (tree : FurtherTree) : List Char :=
  List.replicate tree.spacesBefore ' ' ++ ',' :: List.replicate tree.spacesAfter ' '

def chars (tree : FurtherTree) : List Char := tree.separator ++ tree.operand.chars

end FurtherTree

@[ext]
structure CallTree where
  name : RangeWord 'A' 'Z'
  first : OperandTree
  further : List FurtherTree

namespace CallTree

/-- The derivations of the operands, in order. -/
def operands (tree : CallTree) : List OperandTree :=
  tree.first :: tree.further.map FurtherTree.operand

/-- What stands between the parentheses. -/
def arguments (tree : CallTree) : List Char :=
  tree.first.chars ++ tree.further.flatMap FurtherTree.chars

def chars (tree : CallTree) : List Char :=
  tree.name.val ++ '(' :: (tree.arguments ++ [')'])

/-- The call that a derivation spells. -/
def call (tree : CallTree) : Call :=
  ⟨tree.name.val, tree.operands.map OperandTree.operand⟩

end CallTree

end PlainSheet
