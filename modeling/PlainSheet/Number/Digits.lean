/-!
Whole numbers from their digits. A short number is read digit by digit. A number of
many digits is put together by joining its digits in pairs, the pairs again in pairs,
and so on; this takes few steps on large numbers, where reading digit by digit takes
one for every digit. Both ways give the same number.
-/

namespace PlainSheet.Digits

/-- The number of digits that stand lowest first. -/
def ofLowestFirst (base : Nat) (digits : List Nat) : Nat :=
  digits.foldr (fun digit number => digit + base * number) 0

/-- The number of digits that stand highest first. -/
def ofHighestFirst (base : Nat) (digits : List Nat) : Nat :=
  digits.foldl (fun number digit => number * base + digit) 0

/-- Joins each digit with the one above it to a digit of the squared base. Digits stand
lowest first, and digits joined before are kept in reverse. -/
def joinPairs (base : Nat) (joined : List Nat) : List Nat → List Nat
  | low :: high :: rest => joinPairs base ((low + base * high) :: joined) rest
  | [low] => (low :: joined).reverse
  | [] => joined.reverse

/-- The number of digits that stand lowest first, which are first joined in pairs a
number of times. -/
def ofJoined (base : Nat) : Nat → List Nat → Nat
  | 0, digits => ofLowestFirst base digits
  | times + 1, digits => ofJoined (base * base) times (joinPairs base [] digits)

/-- Numbers with fewer digits are read digit by digit. -/
def manyDigits : Nat := 256

/-- The number of digits in a base, the highest first. -/
def number (base : Nat) (digits : List Nat) : Nat :=
  if digits.length < manyDigits then ofHighestFirst base digits
  else ofJoined base digits.length.log2 digits.reverse

theorem ofLowestFirst_joinPairs_foldl (base : Nat) (joined digits : List Nat) :
    ofLowestFirst (base * base) (joinPairs base joined digits) =
      joined.foldl (fun number digit => digit + base * base * number)
        (ofLowestFirst base digits) := by
  fun_induction joinPairs base joined digits with
  | case1 joined low high rest ih =>
    rw [ih]
    simp [ofLowestFirst, Nat.mul_add, Nat.mul_assoc, Nat.add_assoc]
  | case2 joined low => simp [ofLowestFirst, List.foldr_append]
  | case3 joined => simp [ofLowestFirst]

/-- Joining digits in pairs does not change the number. -/
theorem ofLowestFirst_joinPairs (base : Nat) (digits : List Nat) :
    ofLowestFirst (base * base) (joinPairs base [] digits) = ofLowestFirst base digits :=
  ofLowestFirst_joinPairs_foldl base [] digits

theorem ofJoined_eq (base times : Nat) (digits : List Nat) :
    ofJoined base times digits = ofLowestFirst base digits := by
  induction times generalizing base digits with
  | zero => rfl
  | succ times ih => rw [ofJoined, ih, ofLowestFirst_joinPairs]

theorem ofLowestFirst_reverse (base : Nat) (digits : List Nat) :
    ofLowestFirst base digits.reverse = ofHighestFirst base digits := by
  unfold ofLowestFirst ofHighestFirst
  rw [List.foldr_reverse]
  simp only [Nat.mul_comm, Nat.add_comm]

/-- However many digits there are, the number is the one read digit by digit. -/
theorem number_eq (base : Nat) (digits : List Nat) :
    number base digits = ofHighestFirst base digits := by
  unfold number
  split
  · rfl
  · rw [ofJoined_eq, ofLowestFirst_reverse]

def decimal (digits : List Char) : Nat :=
  number 10 (digits.map fun c => c.toNat - '0'.toNat)

/-- The number of decimal digits is the one that the core library reads. -/
theorem decimal_eq (digits : List Char) : decimal digits = Nat.ofDigitChars 10 digits 0 := by
  unfold decimal Nat.ofDigitChars
  rw [number_eq, ofHighestFirst, List.foldl_map]
  simp only [Nat.mul_comm]

theorem le_ofDigitChars (digits : List Char) (init : Nat) :
    init ≤ Nat.ofDigitChars 10 digits init := by
  induction digits generalizing init with
  | nil => exact Nat.le_refl init
  | cons digit digits ih =>
    rw [Nat.ofDigitChars_cons]
    exact Nat.le_trans (by omega) (ih _)

end PlainSheet.Digits
