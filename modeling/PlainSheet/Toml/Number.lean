import PlainSheet.Number.Decimal
import PlainSheet.Text.Digit
import PlainSheet.Toml.Value

/-!
Numbers, dates and times of the TOML format. Each reader takes the characters to read
and answers what it read with the rest, or nothing.
-/

namespace PlainSheet.Toml

/-- Reads digits, of which any two may have an underscore between them. Digits read
before are kept in reverse; an underscore that no digit follows is not read. -/
def moreDigits (isDigit : Char → Bool) (read : List Char) : List Char → List Char × List Char
  | [] => (read.reverse, [])
  | [c] => if isDigit c then ((c :: read).reverse, []) else (read.reverse, [c])
  | c :: d :: rest =>
    if isDigit c then moreDigits isDigit (c :: read) (d :: rest)
    else if c = '_' ∧ isDigit d then moreDigits isDigit read (d :: rest)
    else (read.reverse, c :: d :: rest)

/-- Reads digits that start with a digit. -/
def digits? (isDigit : Char → Bool) : List Char → Option (List Char × List Char)
  | c :: rest => if isDigit c then some (moreDigits isDigit [c] rest) else none
  | [] => none

/-- Reads the sign and the digits of a decimal integer. A leading zero stands alone. -/
def decimalDigits? (text : List Char) : Option (Bool × List Char × List Char) :=
  match Decimal.scanSign text with
  | (negative, '0' :: rest) => some (negative, ['0'], rest)
  | (negative, unsigned) =>
    (digits? Char.isDigit unsigned).map fun (ds, rest) => (negative, ds, rest)

/-- Reads an optional fraction: a point and digits. -/
def fraction? : List Char → Option (List Char × List Char)
  | '.' :: rest => digits? Char.isDigit rest
  | _ => none

/-- Reads an exponent: the letter `e` in either case, an optional sign and digits. -/
def exponent? : List Char → Option (Int × List Char)
  | c :: rest => do
    if c = 'e' ∨ c = 'E' then
      let (negative, unsigned) := Decimal.scanSign rest
      let (ds, rest) ← digits? Char.isDigit unsigned
      some (Decimal.signedExponent negative ds, rest)
    else none
  | [] => none

/-- Reads the decimal number of a float, which has a fraction, an exponent or both. -/
def decimal? (text : List Char) : Option (Decimal × List Char) := do
  let (negative, whole, rest) ← decimalDigits? text
  match fraction? rest with
  | some (fraction, afterFraction) =>
    match exponent? afterFraction with
    | some (exponent, rest) => some (⟨negative, whole, fraction, exponent⟩, rest)
    | none => some (⟨negative, whole, fraction, 0⟩, afterFraction)
  | none =>
    let (exponent, rest) ← exponent? rest
    some (⟨negative, whole, [], exponent⟩, rest)

/-- Reads a float. A positive number too large for the format is refused; infinity and
NaN are written in letters. -/
def float? (text : List Char) : Option (Value × List Char) :=
  match decimal? text with
  | some (d, rest) =>
    if d.toBinary64 = .infinity false then none else some (.float d.toBinary64, rest)
  | none =>
    match Decimal.scanSign text with
    | (negative, 'i' :: 'n' :: 'f' :: rest) => some (.float (.infinity negative), rest)
    | (_, 'n' :: 'a' :: 'n' :: rest) => some (.float .nan, rest)
    | _ => none

/-- Whether a character is a digit of a base up to 16. -/
def isDigitOf (base : Nat) (c : Char) : Bool :=
  (Text.hexValue? c).any fun value => decide (value < base)

/-- The number that digits of a base up to 16 give. -/
def ofDigits (base : Nat) (digits : List Char) : Nat :=
  Digits.number base (digits.map fun c => (Text.hexValue? c).getD 0)

/-- Reads the digits of an integer in a base other than ten. -/
def basedInteger? (base : Nat) (text : List Char) : Option (Int × List Char) := do
  let (ds, rest) ← digits? (isDigitOf base) text
  some (Int.ofNat (ofDigits base ds), rest)

def decimalInteger? (text : List Char) : Option (Int × List Char) := do
  let (negative, ds, rest) ← decimalDigits? text
  let size := Int.ofNat (Digits.decimal ds)
  some (if negative then -size else size, rest)

/-- Reads an integer in one of the four bases. It must fit into 64 bits with sign. -/
def integer? (text : List Char) : Option (Value × List Char) := do
  let (number, rest) ←
    match text with
    | '0' :: 'x' :: ds => basedInteger? 16 ds
    | '0' :: 'o' :: ds => basedInteger? 8 ds
    | '0' :: 'b' :: ds => basedInteger? 2 ds
    | _ => decimalInteger? text
  if Int64.minValue.toInt ≤ number ∧ number ≤ Int64.maxValue.toInt then
    some (.integer number, rest)
  else none

/-- Reads a fixed count of digits as a number between two bounds. -/
def field? (count least greatest : Nat) (text : List Char) : Option (Nat × List Char) :=
  let ds := text.take count
  let number := Nat.ofDigitChars 10 ds 0
  if ds.length = count ∧ ds.all Char.isDigit ∧ least ≤ number ∧ number ≤ greatest then
    some (number, text.drop count)
  else none

def expect? (wanted : Char) : List Char → Option (List Char)
  | c :: rest => if c = wanted then some rest else none
  | [] => none

def daysIn (year month : Nat) : Nat :=
  if month = 2 then
    if year % 4 = 0 ∧ (year % 100 ≠ 0 ∨ year % 400 = 0) then 29 else 28
  else if month = 4 ∨ month = 6 ∨ month = 9 ∨ month = 11 then 30
  else 31

def afterDate? (text : List Char) : Option (List Char) := do
  let (year, rest) ← field? 4 0 9999 text
  let (month, rest) ← field? 2 1 12 (← expect? '-' rest)
  let (_, rest) ← field? 2 1 (daysIn year month) (← expect? '-' rest)
  some rest

/-- The rest after a fraction of a second, which need not be there. -/
def afterSecondFraction (text : List Char) : List Char :=
  match text with
  | '.' :: c :: rest => if c.isDigit then rest.dropWhile Char.isDigit else text
  | _ => text

/-- The rest after a time of day. A minute may have a leap second. -/
def afterTime? (text : List Char) : Option (List Char) := do
  let (_, rest) ← field? 2 0 23 text
  let (_, rest) ← field? 2 0 59 (← expect? ':' rest)
  let (_, rest) ← field? 2 0 60 (← expect? ':' rest)
  some (afterSecondFraction rest)

/-- The rest after a distance from universal time, which need not be there. -/
def afterOffset (text : List Char) : List Char :=
  match text with
  | c :: rest =>
    if c = 'Z' ∨ c = 'z' then rest
    else if c = '+' ∨ c = '-' then
      let offset? := do
        let (_, rest) ← field? 2 0 23 rest
        let (_, rest) ← field? 2 0 59 (← expect? ':' rest)
        some rest
      offset?.getD text
    else text
  | [] => text

/-- The rest after a time of day behind a date, which need not be there. -/
def afterDayTime (text : List Char) : List Char :=
  match text with
  | c :: rest =>
    if c = 'T' ∨ c = 't' ∨ c = ' ' then
      match afterTime? rest with
      | some afterTime => afterOffset afterTime
      | none => text
    else text
  | [] => text

/-- Reads a date, a time of day, or both with or without a distance from universal
time. -/
def dateTime? (text : List Char) : Option (Value × List Char) :=
  (((afterDate? text).map afterDayTime).or (afterTime? text)).map fun rest => (.dateTime, rest)

end PlainSheet.Toml
