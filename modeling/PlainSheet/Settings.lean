import PlainSheet.FileTree
import PlainSheet.Text.Utf8
import PlainSheet.Toml.Document

/-!
The settings of the command line and the file they come from. A settings file is a
TOML document with up to two tables, `eval` and `output`. A file that cannot be used
gives a warning, and the settings are then the default ones. How a document is
understood is left to a parser, which settings or the text of an error come from;
`Settings.ofString` is the one in use.
-/

namespace PlainSheet

structure Settings where
  /-- The longest reference chain before evaluation gives up; zero is no limit. -/
  maxDepth : Nat := 1000
  /-- What stands between cells when a whole table is shown. -/
  separator : String := "\t"
deriving DecidableEq, Repr

namespace Settings

/-- The limit on reference chains that a depth setting stands for. -/
def depthLimit (maxDepth : Nat) : Option Nat :=
  if maxDepth = 0 then none else some maxDepth

/-- The only value that a table of one setting gives. The table is empty, has the key of
the setting and no other, or is an array whose first element is the value. -/
def onlyValue? (key : String) : Toml.Value → Option (Option Toml.Value)
  | .table _ [] => some none
  | .table _ [(other, value)] => if other = key then some (some value) else none
  | .array [] => some none
  | .array (value :: _) => some (some value)
  | _ => none

/-- Takes over the table `eval`, whose setting `max_depth` is a number without sign. -/
def withEval? (settings : Settings) (table : Toml.Value) : Option Settings := do
  match ← onlyValue? "max_depth" table with
  | none => some settings
  | some (.integer number) =>
    if 0 ≤ number then some ⟨number.toNat, settings.separator⟩ else none
  | some _ => none

/-- Takes over the table `output`, whose setting `separator` is a string. -/
def withOutput? (settings : Settings) (table : Toml.Value) : Option Settings := do
  match ← onlyValue? "separator" table with
  | none => some settings
  | some (.string text) => some ⟨settings.maxDepth, text⟩
  | some _ => none

/-- Takes over the tables of a document. Other keys than the two are refused. -/
def ofEntries? : Toml.Entries → Settings → Option Settings
  | [], settings => some settings
  | (key, table) :: rest, settings =>
    if key = "eval" then (settings.withEval? table).bind (ofEntries? rest)
    else if key = "output" then (settings.withOutput? table).bind (ofEntries? rest)
    else none

/-- The settings that a document gives. The text of the error is no more than that there
is one; other parsers may say what is wrong with the document. -/
def ofString (text : String) : Except String Settings :=
  match (Toml.document? text).bind fun entries => ofEntries? entries {} with
  | some settings => .ok settings
  | none => .error "TOML parse error"

/-- The most bytes that a settings file may have: 1 MiB. -/
def maxBytes : Nat := 1048576

end Settings

inductive SettingsWarning where
  | notFound (path : String)
  | tooLarge (path : String) (size : Nat)
  | unreadable (path : String) (cause : String)
  | malformed (path : String) (cause : String)
deriving DecidableEq, Repr

/-- The text by which a settings file that is not used is reported. -/
def SettingsWarning.message : SettingsWarning → String
  | notFound path => "Config file not found: " ++ path
  | tooLarge path size =>
    "Refusing to read " ++ path ++ ": file too large (" ++ toString size ++ " bytes, max " ++
      toString Settings.maxBytes ++ ")"
  | unreadable path cause => "Failed to read " ++ path ++ ": " ++ cause
  | malformed path cause => "Failed to parse " ++ path ++ ": " ++ cause

namespace Settings

/-- The settings of a file, given what reading it gave. A missing file is reported when
it was asked for, and passed over when it is the one that is looked for by default. -/
def ofFile (parse : String → Except String Settings) (askedFor : Bool) (path : String)
    (contents : Except FileError ByteArray) : Settings × List SettingsWarning :=
  match contents with
  | .ok bytes =>
    if maxBytes < bytes.size then ({}, [.tooLarge path bytes.size])
    else
      match Text.decode bytes with
      | .error _ => ({}, [.unreadable path "stream did not contain valid UTF-8"])
      | .ok text =>
        match parse text with
        | .ok settings => (settings, [])
        | .error cause => ({}, [.malformed path cause])
  | .error .isDirectory => ({}, [.unreadable path FileError.isDirectory.message])
  | .error (.other cause) => ({}, [.unreadable path cause])
  | .error _ => ({}, if askedFor then [.notFound path] else [])

/-- The settings of the file that was asked for, or else of the user's own file, if there
is a place for one. -/
def load (parse : String → Except String Settings) (askedFor ownFile : Option String)
    (read : String → Except FileError ByteArray) : Settings × List SettingsWarning :=
  match askedFor, ownFile with
  | some path, _ => ofFile parse true path (read path)
  | none, some path => ofFile parse false path (read path)
  | none, none => ({}, [])

end Settings

end PlainSheet
