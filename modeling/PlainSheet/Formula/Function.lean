import PlainSheet.Binary64.Arithmetic

/-!
The functions of formulas. Each is an operation of two values that a call folds over
its operands from left to right, together with the operand counts that it takes.
-/

namespace PlainSheet

/-- The operand counts that a function takes. -/
inductive Arity where
  | atLeast (count : Nat)
  | exactly (count : Nat)
deriving DecidableEq, Repr

namespace Arity

def accepts : Arity → Nat → Bool
  | atLeast least, count => decide (least ≤ count)
  | exactly wanted, count => count == wanted

/-- The counts as messages name them. -/
def display : Arity → String
  | atLeast count => "at least " ++ toString count
  | exactly count => toString count

end Arity

inductive Function where
  | add
  | multiply
  | subtract
  | divide
  | mod
deriving DecidableEq, Repr

namespace Function

/-- The functions in the order in which names are compared. -/
def all : List Function := [add, multiply, subtract, divide, mod]

def name : Function → String
  | add => "ADD"
  | multiply => "MULTIPLY"
  | subtract => "SUBTRACT"
  | divide => "DIVIDE"
  | mod => "MOD"

/-- The function of a name, which has to be in capital letters. -/
def ofName? (name : String) : Option Function :=
  all.find? fun f => f.name == name

theorem ofName?_name (f : Function) : ofName? f.name = some f := by
  cases f <;> decide

theorem name_of_ofName? {name : String} {f : Function} (h : ofName? name = some f) :
    f.name = name :=
  eq_of_beq (List.find?_some (p := fun g : Function => g.name == name) h)

/-- Sums and products take two operands or more, the other functions exactly two. -/
def arity : Function → Arity
  | add | multiply => .atLeast 2
  | subtract | divide | mod => .exactly 2

/-- The operation that a call folds over its operands. -/
def apply : Function → Binary64 → Binary64 → Binary64
  | add => Binary64.add
  | multiply => Binary64.mul
  | subtract => Binary64.sub
  | divide => Binary64.div
  | mod => Binary64.flooredRem

/-- The result of a call: the operation applied from left to right. A call without
operands, which no function takes, would be zero. -/
def fold (f : Function) : List Binary64 → Binary64
  | [] => .zero
  | first :: others => others.foldl f.apply first

end Function

end PlainSheet
