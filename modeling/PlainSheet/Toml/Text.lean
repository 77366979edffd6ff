import PlainSheet.Text.Digit

/-!
Characters, comments, line ends, strings and keys of the TOML format. Each reader takes
the characters to read and answers what it read with the rest, or nothing.
-/

namespace PlainSheet.Toml

/-- Space and tab, which may stand between the parts of a line. -/
def isSpace (c : Char) : Bool := c == ' ' || c == '\t'

/-- The characters that comments and literal strings may hold: tab, printable ASCII and
everything above ASCII. -/
def isPlain (c : Char) : Bool :=
  c == '\t' || (0x20 ≤ c.toNat && c.toNat ≤ 0x7e) || 0x80 ≤ c.toNat

def skipSpace (text : List Char) : List Char := text.dropWhile isSpace

/-- Reads the end of a line, which the end of the text also is. -/
def lineEnd? : List Char → Option (List Char)
  | [] => some []
  | '\n' :: rest => some rest
  | '\r' :: '\n' :: rest => some rest
  | _ => none

/-- The rest after a comment, if one starts here. -/
def skipComment : List Char → List Char
  | '#' :: rest => rest.dropWhile isPlain
  | rest => rest

/-- Reads what may follow on a line: space, a comment and the end of the line. -/
def lineRest? (text : List Char) : Option (List Char) :=
  lineEnd? (skipComment (skipSpace text))

/-- The rest after space, line ends and comments, which may stand between the elements
of an array. Inside a comment only its end is looked for. -/
def skipTrivia (inComment : Bool) : List Char → List Char
  | [] => []
  | '\n' :: rest => skipTrivia false rest
  | '\r' :: '\n' :: rest => skipTrivia false rest
  | c :: rest =>
    if inComment then
      if isPlain c then skipTrivia true rest else c :: rest
    else if isSpace c then skipTrivia false rest
    else if c = '#' then skipTrivia true rest
    else c :: rest

/-- The character whose code hexadecimal digits give. Codes that no character has, the
surrogates among them, give nothing. -/
def charOfHex? (digits : List Char) : Option Char := do
  let values ← digits.mapM Text.hexValue?
  let code := values.foldl (fun code value => code * 16 + value) 0
  if code.isValidChar then some (Char.ofNat code) else none

/-- The character that a letter after a backslash stands for. -/
def escaped? (letter : Char) : Option Char :=
  match letter with
  | 'b' => some '\x08'
  | 't' => some '\t'
  | 'n' => some '\n'
  | 'f' => some '\x0c'
  | 'r' => some '\r'
  | '"' => some '"'
  | '\\' => some '\\'
  | _ => none

/-- Reads a basic string after its opening quote. Characters read before are kept in
reverse. -/
def basicString? (read : List Char) : List Char → Option (String × List Char)
  | [] => none
  | '"' :: rest => some (String.ofList read.reverse, rest)
  | '\\' :: 'u' :: a :: b :: c :: d :: rest => do
    basicString? ((← charOfHex? [a, b, c, d]) :: read) rest
  | '\\' :: 'U' :: a :: b :: c :: d :: e :: f :: g :: h :: rest => do
    basicString? ((← charOfHex? [a, b, c, d, e, f, g, h]) :: read) rest
  | '\\' :: letter :: rest => do
    basicString? ((← escaped? letter) :: read) rest
  | c :: rest => if isPlain c then basicString? (c :: read) rest else none

/-- Reads a literal string after its opening quote. -/
def literalString? (text : List Char) : Option (String × List Char) :=
  let content := text.takeWhile fun c => isPlain c && c != '\''
  match text.dropWhile fun c => isPlain c && c != '\'' with
  | '\'' :: rest => some (String.ofList content, rest)
  | _ => none

/-- Where the reader of a string of several lines stands. -/
inductive Folding where
  /-- Among the characters of the string. -/
  | none
  /-- After a backslash and space; the line must end. -/
  | awaited
  /-- After a backslash at the end of a line; space and line ends are passed over. -/
  | passing
deriving DecidableEq, Repr

/-- Closes a string of several lines after the three quotes that end it. Up to two more
quotes belong to the string. -/
def closeLines (quote : Char) (read rest : List Char) : String × List Char :=
  match rest with
  | a :: b :: more =>
    if a = quote ∧ b = quote then (String.ofList (quote :: quote :: read).reverse, more)
    else if a = quote then (String.ofList (quote :: read).reverse, b :: more)
    else (String.ofList read.reverse, rest)
  | [a] =>
    if a = quote then (String.ofList (quote :: read).reverse, [])
    else (String.ofList read.reverse, rest)
  | [] => (String.ofList read.reverse, rest)

/-- Reads a basic string of several lines after its opening quotes. A backslash at the
end of a line removes the line end and all space up to the next character. -/
def basicLines? (folding : Folding) (read : List Char) : List Char → Option (String × List Char)
  | [] => none
  | '\n' :: rest =>
    if folding = .none then basicLines? .none ('\n' :: read) rest
    else basicLines? .passing read rest
  | '\r' :: '\n' :: rest =>
    if folding = .none then basicLines? .none ('\n' :: read) rest
    else basicLines? .passing read rest
  | '"' :: '"' :: '"' :: rest =>
    if folding = .awaited then none else some (closeLines '"' read rest)
  | '\\' :: 'u' :: a :: b :: c :: d :: rest =>
    if folding = .awaited then none
    else do basicLines? .none ((← charOfHex? [a, b, c, d]) :: read) rest
  | '\\' :: 'U' :: a :: b :: c :: d :: e :: f :: g :: h :: rest =>
    if folding = .awaited then none
    else do basicLines? .none ((← charOfHex? [a, b, c, d, e, f, g, h]) :: read) rest
  | '\\' :: '\n' :: rest =>
    if folding = .awaited then none else basicLines? .passing read rest
  | '\\' :: '\r' :: '\n' :: rest =>
    if folding = .awaited then none else basicLines? .passing read rest
  | '\\' :: letter :: rest =>
    if folding = .awaited then none
    else if isSpace letter then basicLines? .awaited read rest
    else do basicLines? .none ((← escaped? letter) :: read) rest
  | c :: rest =>
    if isSpace c ∧ folding ≠ .none then basicLines? folding read rest
    else if folding = .awaited then none
    else if isPlain c then basicLines? .none (c :: read) rest
    else none

/-- Reads a literal string of several lines after its opening quotes. -/
def literalLines? (read : List Char) : List Char → Option (String × List Char)
  | [] => none
  | '\n' :: rest => literalLines? ('\n' :: read) rest
  | '\r' :: '\n' :: rest => literalLines? ('\n' :: read) rest
  | '\'' :: '\'' :: '\'' :: rest => some (closeLines '\'' read rest)
  | c :: rest => if isPlain c then literalLines? (c :: read) rest else none

/-- The rest after a line end right behind opening quotes, which is no part of the
string. -/
def skipFirstLineEnd : List Char → List Char
  | '\n' :: rest => rest
  | '\r' :: '\n' :: rest => rest
  | rest => rest

/-- Reads a string of any of the four kinds. -/
def string? : List Char → Option (String × List Char)
  | '"' :: '"' :: '"' :: rest => basicLines? .none [] (skipFirstLineEnd rest)
  | '"' :: rest => basicString? [] rest
  | '\'' :: '\'' :: '\'' :: rest => literalLines? [] (skipFirstLineEnd rest)
  | '\'' :: rest => literalString? rest
  | _ => none

/-- The characters of keys without quotes. -/
def isKeyChar (c : Char) : Bool :=
  c.isAlphanum || c == '-' || c == '_'

/-- Reads one key, bare or a string of one line. -/
def simpleKey? : List Char → Option (String × List Char)
  | '"' :: rest => basicString? [] rest
  | '\'' :: rest => literalString? rest
  | text =>
    let name := text.takeWhile isKeyChar
    if name.isEmpty then none else some (String.ofList name, text.dropWhile isKeyChar)

/-- Reads the keys of a dotted key and the space around them. The first argument is a
bound on their number; keys read before are kept in reverse. -/
def dottedKey? : Nat → List String → List Char → Option (List String × List Char)
  | 0, _, _ => none
  | bound + 1, read, text => do
    let (key, rest) ← simpleKey? (skipSpace text)
    match skipSpace rest with
    | '.' :: more => dottedKey? bound (key :: read) more
    | rest => some ((key :: read).reverse, rest)

/-- The number of values that may be nested in each other, and of keys that a dotted
key may have. -/
def nestingLimit : Nat := 79

/-- Reads a key, which may be dotted. -/
def key? (text : List Char) : Option (List String × List Char) :=
  dottedKey? nestingLimit [] text

end PlainSheet.Toml
