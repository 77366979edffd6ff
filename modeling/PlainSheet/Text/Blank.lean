/-!
The three sets of blank characters. Table text is trimmed at its ends by one set,
its cells are dropped as blank by a second, and numbers in cells are read after
characters of the third.
-/

namespace PlainSheet.Text

/-- The six characters that a dropped cell consists of: space, tab, line feed,
carriage return, vertical tab and form feed. -/
def isBlank (c : Char) : Bool :=
  c == ' ' || c == '\t' || c == '\n' || c == '\r' || c == '\x0b' || c == '\x0c'

/-- The characters trimmed from both ends of a table's text: the blank ones and NUL. -/
def isEdge (c : Char) : Bool :=
  isBlank c || c == '\x00'

/-- The property White_Space of the Unicode standard: 25 characters. -/
def isWhiteSpace (c : Char) : Bool :=
  let code := c.toNat
  (0x09 ≤ code && code ≤ 0x0d) || code == 0x20 || code == 0x85 || code == 0xa0 ||
    code == 0x1680 || (0x2000 ≤ code && code ≤ 0x200a) || code == 0x2028 || code == 0x2029 ||
    code == 0x202f || code == 0x205f || code == 0x3000

/-- The text without the characters at either end that satisfy a test. -/
def trimBoth (test : Char → Bool) (text : List Char) : List Char :=
  ((text.dropWhile test).reverse.dropWhile test).reverse

end PlainSheet.Text
