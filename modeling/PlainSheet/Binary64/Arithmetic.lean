import PlainSheet.Binary64.Rounding

/-!
The five operations of formulas on binary64 values. Each computes the exact result
of two finite values and rounds it once; the rules for infinities, zeros and NaN are
those of IEEE 754.
-/

namespace PlainSheet.Binary64

/-- The sum. A sum of opposite values is positive zero. -/
def add : Binary64 → Binary64 → Binary64
  | nan, _ => nan
  | _, nan => nan
  | infinity s, infinity t => if s = t then infinity s else nan
  | infinity s, finite _ _ => infinity s
  | finite _ _, infinity t => infinity t
  | finite s m, finite t n =>
    if s = t then ofUnits s (m.units + n.units)
    else if n.units < m.units then ofUnits s (m.units - n.units)
    else if m.units < n.units then ofUnits t (n.units - m.units)
    else zero

/-- The difference, as the sum with the opposite value. -/
def sub (x y : Binary64) : Binary64 := add x (neg y)

/-- The product. An infinity times zero is NaN. -/
def mul : Binary64 → Binary64 → Binary64
  | nan, _ => nan
  | _, nan => nan
  | infinity s, infinity t => infinity (s != t)
  | infinity s, finite t n => if n.units = 0 then nan else infinity (s != t)
  | finite s m, infinity t => if m.units = 0 then nan else infinity (s != t)
  | finite s m, finite t n => ofQuotient (s != t) (m.units * n.units) unitsPerOne

/-- The quotient. A value other than zero divided by zero is an infinity; zero
divided by zero and infinity divided by infinity are NaN. -/
def div : Binary64 → Binary64 → Binary64
  | nan, _ => nan
  | _, nan => nan
  | infinity _, infinity _ => nan
  | infinity s, finite t _ => infinity (s != t)
  | finite s _, infinity t => finite (s != t) Magnitude.zero
  | finite s m, finite t n =>
    if n.units = 0 then
      if m.units = 0 then nan else infinity (s != t)
    else ofQuotient (s != t) (m.units * unitsPerOne) n.units

/-- The remainder of the division that truncates toward zero. It is exact, and its
sign is that of the dividend. -/
def rem : Binary64 → Binary64 → Binary64
  | nan, _ => nan
  | _, nan => nan
  | infinity _, _ => nan
  | finite s m, infinity _ => finite s m
  | finite s m, finite _ n =>
    if n.units = 0 then nan else ofUnits s (m.units % n.units)

/-- The remainder whose sign follows the divisor: the truncated remainder, moved by
one divisor when it is not zero and lies on the other side of it. -/
def flooredRem (x y : Binary64) : Binary64 :=
  let remainder := rem x y
  if !remainder.isZero && remainder.isNegative != y.isNegative then add remainder y
  else remainder

end PlainSheet.Binary64
