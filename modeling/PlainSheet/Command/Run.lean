import PlainSheet.Command.Invocation
import PlainSheet.Settings
import PlainSheet.Sheet.Files

/-!
Runs of the command, with logging off. A run reads the settings and one table, computes
its whole output, and only then writes it, either to a file or to standard output. A run
that fails has written nothing, and one whose evaluation has no end comes to nothing.
-/

namespace PlainSheet

/-- Why a run fails. -/
inductive RunError where
  /-- There is no table to read in the file, or in standard input when none is named. -/
  | read (file : Option String) (cause : ReadError)
  /-- A cell has no value to show. -/
  | sheet (cause : SheetError)
  /-- The output file cannot be written. -/
  | write (file : String) (cause : FileError)
deriving DecidableEq, Repr

def RunError.message : RunError → String
  | read (some file) cause => "failed to read " ++ file ++ ": IO error: " ++ cause.message
  | read none cause => "failed to read stdin: IO error: " ++ cause.message
  | sheet cause => cause.message
  | write file cause => "failed to write " ++ file ++ ": IO error: " ++ cause.message

/-- The help text. -/
def usage : String :=
  "Usage: tabsheet [OPTIONS] [FILE]\n" ++
  "\n" ++
  "Arguments:\n" ++
  "  [FILE]                    Table text to read (default: stdin)\n" ++
  "\n" ++
  "Options:\n" ++
  "  -c, --cell <ADDR>         Print the value of a cell (can be repeated)\n" ++
  "      --raw                 Print raw cell contents instead of values\n" ++
  "  -o, --output <FILE>       Write output to a file instead of stdout\n" ++
  "      --max-depth <N>       Reference chain limit (0 = unlimited)\n" ++
  "      --config <FILE>       Load settings from this TOML file\n" ++
  "      --no-config           Ignore the config file\n" ++
  "  -v, --verbose             Log debug output to stderr\n" ++
  "  -h, --help                Print help\n"

/-- The line by which a cause is reported on standard error. -/
def errorLine (message : String) : String := "Error: " ++ message ++ "\n"

namespace Invocation

/-- The settings of a run, given how documents are understood and files are read. The
user's own settings file is used when none is asked for. What there is to warn of goes to
the log, which is off. -/
def settings (parse : String → Except String Settings) (invocation : Invocation)
    (ownFile : Option String) (read : String → Except FileError ByteArray) : Settings :=
  if invocation.noConfig then {}
  else (Settings.load parse invocation.config ownFile read).1

/-- The sheet of a table, under the limit that the arguments or else the settings give. -/
def sheet (invocation : Invocation) (settings : Settings) (table : Table) : Sheet :=
  ⟨table, Settings.depthLimit (invocation.maxDepth.getD settings.maxDepth)⟩

/-- What is shown of one cell. -/
def cellText (invocation : Invocation) (sheet : Sheet) (cell : String) :
    Option (Except SheetError String) :=
  if invocation.raw then some (sheet.cellAt cell) else sheet.get cell

/-- What a run shows, given its settings and its table: the cells asked for, each on a
line, or the whole table. -/
def shown (invocation : Invocation) (settings : Settings) (table : Table) :
    Option (Except SheetError String) :=
  let sheet := invocation.sheet settings table
  if invocation.cells.isEmpty then
    if invocation.raw then some (.ok sheet.renderRaw) else sheet.renderWith settings.separator
  else
    (Evaluation.inOrder (invocation.cellText sheet) invocation.cells).map
      (Except.map "\n".intercalate)

/-- The table that a run reads, given how files are read. -/
def table (invocation : Invocation) (stdin : ByteArray)
    (read : String → Except FileError ByteArray) : Except ReadError Table :=
  match invocation.file with
  | some path => Table.ofFile path (read path)
  | none => Table.ofInput stdin

/-- The output of a run, without the newline that standard output gets behind it. -/
def outputText (parse : String → Except String Settings) (invocation : Invocation)
    (ownFile : Option String) (stdin : ByteArray) (read : String → Except FileError ByteArray) :
    Option (Except RunError String) :=
  match invocation.table stdin read with
  | .error cause => some (.error (.read invocation.file cause))
  | .ok table =>
    (invocation.shown (invocation.settings parse ownFile read) table).map
      (Except.mapError .sheet)

end Invocation

/-- What a run with logging off leaves behind. Standard error holds the help text or the
line that reports a failure, and nothing else. -/
structure Outcome where
  code : Nat
  stdout : String
  stderr : String
  files : FileTree

namespace Outcome

/-- The outcome of a run that fails: only standard error is written. -/
def failure (stderr : String) (files : FileTree) : Outcome :=
  { code := 1, stdout := "", stderr := stderr, files := files }

end Outcome

namespace Invocation

/-- Puts the output of a run where it was asked for. -/
def deliver (invocation : Invocation) (text : String) (files : FileTree) : Outcome :=
  match invocation.output with
  | none => { code := 0, stdout := text ++ "\n", stderr := "", files := files }
  | some path =>
    match files.write path text.toUTF8 with
    | .ok files => { code := 0, stdout := "", stderr := "", files := files }
    | .error cause => .failure (errorLine (RunError.write path cause).message) files

/-- A run of an invocation, with the place of the user's own settings file, standard
input and the files there are. There is no outcome when evaluation has no end: the run
then uses up the memory it may have, and is stopped from outside. -/
def run (parse : String → Except String Settings) (invocation : Invocation)
    (ownFile : Option String) (stdin : ByteArray) (files : FileTree) : Option Outcome :=
  if invocation.help then some { code := 0, stdout := "", stderr := usage, files := files }
  else
    (invocation.outputText parse ownFile stdin files.read).map fun
      | .ok text => invocation.deliver text files
      | .error cause => .failure (errorLine cause.message) files

end Invocation

/-- A run of the command, for a given understanding of settings documents. Arguments that
cannot be understood are answered with the help text. -/
def runCommandBy (parse : String → Except String Settings) (arguments : List String)
    (ownFile : Option String) (stdin : ByteArray) (files : FileTree) : Option Outcome :=
  match Invocation.ofArguments arguments with
  | .ok invocation => invocation.run parse ownFile stdin files
  | .error cause => some (.failure (errorLine cause.message ++ usage) files)

/-- A run of the command, with the parser in use. -/
def runCommand (arguments : List String) (ownFile : Option String) (stdin : ByteArray)
    (files : FileTree) : Option Outcome :=
  runCommandBy Settings.ofString arguments ownFile stdin files

end PlainSheet
