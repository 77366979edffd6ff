import PlainSheet.Toml.Number
import PlainSheet.Toml.Text

/-!
Documents of the TOML format, version 1.0. A document is read line by line; a line is
blank, opens a table by its header, or defines a key. Any fault anywhere leaves no
document.
-/

namespace PlainSheet.Toml

/-- Reads the elements of an array after its opening bracket, given how one is read.
The first argument bounds the number of elements; elements read before are kept in
reverse. A comma may stand behind the last element. -/
def elements? (value? : List Char → Option (Value × List Char)) :
    Nat → List Value → List Char → Option (List Value × List Char)
  | 0, _, _ => none
  | bound + 1, read, text =>
    match skipTrivia false text with
    | ']' :: rest => some (read.reverse, rest)
    | start => do
      let (element, rest) ← value? start
      match skipTrivia false rest with
      | ',' :: more => elements? value? bound (element :: read) more
      | ']' :: rest => some ((element :: read).reverse, rest)
      | _ => none

/-- Reads a key with its value, given how a value is read, and the space around them. -/
def keyValue? (value? : List Char → Option (Value × List Char)) (text : List Char) :
    Option (List String × Value × List Char) := do
  let (keys, rest) ← key? text
  let (value, rest) ← value? (skipSpace (← expect? '=' rest))
  some (keys, value, skipSpace rest)

/-- Reads the keys and values of an inline table after its opening brace, given how a
value is read. The first argument bounds their number. No comma may stand behind the
last one, and all of them stand on one line. -/
def inlineEntries? (value? : List Char → Option (Value × List Char)) :
    Nat → Entries → List Char → Option (Entries × List Char)
  | 0, _, _ => none
  | bound + 1, entries, text => do
    let (keys, value, rest) ← keyValue? value? text
    let entries ← entries.defineDotted? keys value
    match rest with
    | ',' :: more => inlineEntries? value? bound entries more
    | '\x7d' :: rest => some (entries, rest)
    | _ => none

/-- Reads an inline table after its opening brace, given how a value is read and a bound
on the number of its values. -/
def inlineTable? (value? : List Char → Option (Value × List Char)) (bound : Nat)
    (text : List Char) : Option (Value × List Char) :=
  match skipSpace text with
  | '\x7d' :: rest => some (.table .inline [], rest)
  | start => do
    let (entries, rest) ← inlineEntries? value? bound [] start
    some (.table .inline entries, rest)

/-- Reads a value that holds no other values. -/
def scalar? (text : List Char) : Option (Value × List Char) :=
  match text with
  | 't' :: 'r' :: 'u' :: 'e' :: rest => some (.boolean true, rest)
  | 'f' :: 'a' :: 'l' :: 's' :: 'e' :: rest => some (.boolean false, rest)
  | '"' :: _ | '\'' :: _ => (string? text).map fun (content, rest) => (.string content, rest)
  | _ => ((dateTime? text).or (float? text)).or (integer? text)

/-- Reads a value. Arrays and inline tables may be nested to the depth given, and none
has as many values as the bound, which exceeds the length of the document. -/
def value? (bound : Nat) : Nat → List Char → Option (Value × List Char)
  | 0, text => if text.head? = some '[' ∨ text.head? = some '\x7b' then none else scalar? text
  | depth + 1, text =>
    match text with
    | '[' :: rest => do
      let (elements, rest) ← elements? (value? bound depth) bound [] rest
      some (.array elements, rest)
    | '\x7b' :: rest => inlineTable? (value? bound depth) bound rest
    | _ => scalar? text

/-- A document as far as it was read: the table that the last header opened, and all
tables so far. -/
structure Progress where
  header : List String
  entries : Entries

/-- Reads one line: its header or its key and value, if it has one. The bound exceeds the
length of the document. -/
def line? (bound : Nat) (progress : Progress) (text : List Char) :
    Option (Progress × List Char) :=
  match text with
  | '[' :: '[' :: start => do
    let (keys, rest) ← key? start
    let rest ← lineRest? (← expect? ']' (← expect? ']' rest))
    some (⟨keys, ← progress.entries.openElement? keys⟩, rest)
  | '[' :: start => do
    let (keys, rest) ← key? start
    let rest ← lineRest? (← expect? ']' rest)
    some (⟨keys, ← progress.entries.openTable? keys⟩, rest)
  | '#' :: _ | '\n' :: _ | '\r' :: _ => (lineRest? text).map fun rest => (progress, rest)
  | _ => do
    let (keys, value, rest) ← keyValue? (value? bound nestingLimit) text
    let rest ← lineRest? rest
    some (⟨progress.header, ← progress.entries.defineIn? progress.header keys value⟩, rest)

/-- Reads lines to the end of the text, at most as many as the second argument says. The
bound exceeds the length of the document. -/
def lines? (bound : Nat) : Nat → Progress → List Char → Option Entries
  | 0, _, _ => none
  | count + 1, progress, text =>
    match skipSpace text with
    | [] => some progress.entries
    | start => do
      let (progress, rest) ← line? bound progress start
      lines? bound count progress rest

/-- The tables of a document. A byte order mark at its beginning is no part of it. -/
def document? (text : String) : Option Entries :=
  let start :=
    match text.toList with
    | '\uFEFF' :: rest => rest
    | all => all
  let bound := start.length + 1
  lines? bound bound ⟨[], []⟩ start

end PlainSheet.Toml
