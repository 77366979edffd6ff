import PlainSheet.FileTree
import PlainSheet.Table.Reader
import PlainSheet.Text.Utf8

/-!
Tables from files and from standard input. Both refuse more than 16 MiB and bytes that
are not UTF-8, in this order.
-/

namespace PlainSheet

inductive ReadError where
  | file (cause : FileError)
  | fileTooLarge (path : String) (size : Nat)
  | fileNotText
  | inputTooLarge
  | inputNotText (fault : Text.Utf8Fault)
deriving DecidableEq, Repr

/-- Whether an error is one of the data that was read, and not of the way to them. -/
def ReadError.isInvalidData : ReadError → Bool
  | file _ => false
  | _ => true

namespace Table

/-- The most bytes that a table is read from: 16 MiB. -/
def maxBytes : Nat := 16 * 1048576

/-- The table in the file at a path, given what reading the file gave. -/
def ofFile (path : String) (contents : Except FileError ByteArray) : Except ReadError Table :=
  match contents with
  | .error cause => .error (.file cause)
  | .ok bytes =>
    if maxBytes < bytes.size then .error (.fileTooLarge path bytes.size)
    else
      match Text.decode bytes with
      | .error _ => .error .fileNotText
      | .ok text => .ok (ofString text)

/-- What is read of standard input, whose size is not known before: at most one byte more
than a table may have. -/
def readInput (bytes : ByteArray) : ByteArray := bytes.extract 0 (maxBytes + 1)

/-- The table in bytes from standard input. -/
def ofInput (bytes : ByteArray) : Except ReadError Table :=
  if maxBytes < (readInput bytes).size then .error .inputTooLarge
  else
    match Text.decode (readInput bytes) with
    | .error fault => .error (.inputNotText fault)
    | .ok text => .ok (ofString text)

end Table

def ReadError.message : ReadError → String
  | file cause => cause.message
  | fileTooLarge path size =>
    "Refusing to read " ++ path ++ ": table too large (" ++ toString size ++ " bytes, max " ++
      toString Table.maxBytes ++ ")"
  | fileNotText => "stream did not contain valid UTF-8"
  | inputTooLarge =>
    "Refusing to read input: table too large (more than " ++ toString Table.maxBytes ++
      " bytes, max " ++ toString Table.maxBytes ++ ")"
  | inputNotText fault => fault.message

end PlainSheet
