/-!
Text from bytes. Bytes that are no UTF-8 are refused with the place of the first fault
and the number of bytes there that begin a character and break off.
-/

namespace PlainSheet.Text

/-- The first fault of bytes that are not UTF-8. -/
structure Utf8Fault where
  /-- How many bytes before the fault are whole characters. -/
  index : Nat
  /-- How many bytes at the fault begin a character that the next byte breaks off;
  absent when the bytes end inside a character. -/
  size : Option Nat
deriving DecidableEq, Repr

def Utf8Fault.message (fault : Utf8Fault) : String :=
  match fault.size with
  | some size =>
    "invalid utf-8 sequence of " ++ toString size ++ " bytes from index " ++ toString fault.index
  | none => "incomplete utf-8 byte sequence from index " ++ toString fault.index

/-- What bytes begin with. -/
inductive Utf8Start where
  | whole (size : Nat)
  /-- So many bytes of a character, or one byte that begins none, and then another byte. -/
  | broken (size : Nat)
  /-- The beginning of a character, and then no more bytes. -/
  | cut
deriving DecidableEq, Repr

/-- The shape of the characters that a byte above 7F begins: the least and the greatest
second byte, and the number of bytes after the second. -/
def utf8Shape? (first : UInt8) : Option (UInt8 × UInt8 × Nat) :=
  if first < 0xc2 then none
  else if first < 0xe0 then some (0x80, 0xbf, 0)
  else if first = 0xe0 then some (0xa0, 0xbf, 1)
  else if first = 0xed then some (0x80, 0x9f, 1)
  else if first < 0xf0 then some (0x80, 0xbf, 1)
  else if first = 0xf0 then some (0x90, 0xbf, 2)
  else if first < 0xf4 then some (0x80, 0xbf, 2)
  else if first = 0xf4 then some (0x80, 0x8f, 2)
  else none

/-- Looks for the last bytes of a character of which `size` bytes were seen. -/
def utf8Tail (size : Nat) : Nat → List UInt8 → Utf8Start
  | 0, _ => .whole size
  | _ + 1, [] => .cut
  | further + 1, byte :: rest =>
    if 0x80 ≤ byte ∧ byte ≤ 0xbf then utf8Tail (size + 1) further rest else .broken size

/-- What bytes begin with, given the first of them. -/
def utf8Start (first : UInt8) (rest : List UInt8) : Utf8Start :=
  if first < 0x80 then .whole 1
  else
    match utf8Shape? first with
    | none => .broken 1
    | some (least, greatest, further) =>
      match rest with
      | [] => .cut
      | second :: others =>
        if least ≤ second ∧ second ≤ greatest then utf8Tail 2 further others else .broken 1

/-- The first fault in bytes that come after `index` others. -/
def firstFault? (index : Nat) : List UInt8 → Option Utf8Fault
  | [] => none
  | first :: rest =>
    match utf8Start first rest with
    | .whole size => firstFault? (index + size) (rest.drop (size - 1))
    | .broken size => some ⟨index, some size⟩
    | .cut => some ⟨index, none⟩
termination_by bytes => bytes.length
decreasing_by
  simp only [List.length_drop, List.length_cons]
  omega

def decode (bytes : ByteArray) : Except Utf8Fault String :=
  match String.fromUTF8? bytes with
  | some text => .ok text
  | none => .error ((firstFault? 0 bytes.toList).getD ⟨bytes.size, none⟩)

end PlainSheet.Text
