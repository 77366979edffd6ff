import PlainSheet.Address
import PlainSheet.Number.Digits

/-!
Invocations of the command: what its arguments ask for, and what can be wrong with
them. Options may stand before and after the name of the input, and a later value of an
option replaces an earlier one, except that the cells asked for add up.
-/

namespace PlainSheet

/-- What can be wrong with arguments. -/
inductive ArgumentError where
  /-- An option stands last and lacks its value. -/
  | missingValue (option wanted : String)
  /-- The value of the depth option is no number that fits. -/
  | invalidDepth (value : String)
  | unknownOption (argument : String)
  /-- A further argument follows the name of the input. -/
  | unexpected (argument : String)
deriving DecidableEq, Repr

def ArgumentError.message : ArgumentError → String
  | missingValue option wanted => option ++ " requires " ++ wanted
  | invalidDepth value => "invalid --max-depth value: " ++ value
  | unknownOption argument => "Unknown option: " ++ argument
  | unexpected argument => "Unexpected argument: " ++ argument

/-- The options of the command. -/
inductive CommandOption where
  | help
  | cell
  | raw
  | output
  | maxDepth
  | config
  | noConfig
  | verbose
deriving DecidableEq, Repr

/-- An option by its short or its long name. -/
def CommandOption.ofString? : String → Option CommandOption
  | "-h" | "--help" => some help
  | "-c" | "--cell" => some cell
  | "--raw" => some raw
  | "-o" | "--output" => some output
  | "--max-depth" => some maxDepth
  | "--config" => some config
  | "--no-config" => some noConfig
  | "-v" | "--verbose" => some verbose
  | _ => none

/-- What the arguments of the command ask for. -/
structure Invocation where
  /-- The file to read; standard input when absent. -/
  file : Option String := none
  /-- The cells to show, in order; the whole table when there are none. -/
  cells : List String := []
  raw : Bool := false
  /-- The file to write; standard output when absent. -/
  output : Option String := none
  /-- The limit on reference chains; zero is no limit, and the settings decide when it
  is absent. -/
  maxDepth : Option Nat := none
  config : Option String := none
  noConfig : Bool := false
  /-- Whether progress is reported, which is no part of what a run leaves behind. -/
  verbose : Bool := false
  /-- Whether the help text is wanted and nothing else. -/
  help : Bool := false
deriving DecidableEq, Repr

namespace Invocation

/-- The depth that an argument gives: decimal digits behind an optional plus sign, no
larger than the largest index. -/
def depthOfString? (value : String) : Option Nat :=
  let digits :=
    match value.toList with
    | '+' :: digits => digits
    | digits => digits
  if digits.isEmpty || !digits.all Char.isDigit then none
  else
    let depth := Digits.decimal digits
    if depth ≤ Address.maxIndex then some depth else none

/-- Whether an argument has the form of an option. A lone minus sign does not: it names
standard input. -/
def isOptionLike (argument : String) : Bool :=
  argument.toList.head? == some '-' && argument != "-"

/-- Takes over an argument that is no option: the file to read, unless one was named
before. -/
def withInput (invocation : Invocation) (argument : String) : Except ArgumentError Invocation :=
  if invocation.file.isSome then .error (.unexpected argument)
  else if argument = "-" then .ok invocation
  else .ok { invocation with file := some argument }

/-- Takes over arguments from left to right. The first that is wrong decides the error. -/
def addArguments (invocation : Invocation) : List String → Except ArgumentError Invocation
  | [] => .ok invocation
  | argument :: rest =>
    match CommandOption.ofString? argument with
    | some .help => addArguments { invocation with help := true } rest
    | some .raw => addArguments { invocation with raw := true } rest
    | some .noConfig => addArguments { invocation with noConfig := true } rest
    | some .verbose => addArguments { invocation with verbose := true } rest
    | some .cell =>
      match rest with
      | [] => .error (.missingValue "--cell" "an address")
      | cell :: more => addArguments { invocation with cells := invocation.cells ++ [cell] } more
    | some .output =>
      match rest with
      | [] => .error (.missingValue "--output" "a file path")
      | path :: more => addArguments { invocation with output := some path } more
    | some .maxDepth =>
      match rest with
      | [] => .error (.missingValue "--max-depth" "a value")
      | value :: more =>
        match depthOfString? value with
        | some depth => addArguments { invocation with maxDepth := some depth } more
        | none => .error (.invalidDepth value)
    | some .config =>
      match rest with
      | [] => .error (.missingValue "--config" "a file path")
      | path :: more => addArguments { invocation with config := some path } more
    | none =>
      if isOptionLike argument then .error (.unknownOption argument)
      else
        match invocation.withInput argument with
        | .ok invocation => addArguments invocation rest
        | .error cause => .error cause

def ofArguments (arguments : List String) : Except ArgumentError Invocation :=
  addArguments {} arguments

end Invocation

end PlainSheet
