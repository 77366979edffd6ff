import PlainSheet.Command.Run

/-!
The command itself. It reads the files that an invocation names, lets
`Invocation.outputText` compute the output from their contents, and writes it.
-/

namespace PlainSheet

/-- The cause behind a failed operation of the system's files. Error 21 is that of a
directory in the place of a file and error 36 that of a name that is too long; the
system may give the code negated. -/
def FileError.ofSystem (error : IO.Error) : FileError :=
  match error with
  | .noFileOrDirectory _ _ _ => .notFound
  | .inappropriateType _ code _ =>
    if code = 21 ∨ code = -21 then .isDirectory else .notDirectory
  | .invalidArgument _ code _ =>
    if code = 36 ∨ code = -36 then .nameTooLong else .other error.toString
  | _ => .other error.toString

/-- The contents of a file of the system. -/
def systemContents (path : String) : IO (Except FileError ByteArray) := do
  try
    return .ok (← IO.FS.readBinFile path)
  catch error => return .error (.ofSystem error)

/-- The place of the user's own settings file: below the directory that the environment
names for settings when it is an absolute path, or else below the home directory. -/
def ownSettingsFile : IO (Option String) := do
  let place := fun directory : String => directory ++ "/tabsheet/config.toml"
  match ← IO.getEnv "XDG_CONFIG_HOME" with
  | some directory =>
    if directory.startsWith "/" then return some (place directory)
  | none => pure ()
  return (← IO.getEnv "HOME").map fun home => place (home ++ "/.config")

def Invocation.inputs (invocation : Invocation) (ownFile : Option String) : List String :=
  (if invocation.noConfig then [] else (invocation.config.or ownFile).toList) ++
    invocation.file.toList

/-- Runs an invocation on the system's files, and answers the exit code. Evaluation that
has no end is given up without a message, with the code of a process that was aborted. -/
def Invocation.runOnSystem (invocation : Invocation) : IO UInt32 := do
  let ownFile ← ownSettingsFile
  let contents ← (invocation.inputs ownFile).mapM fun path =>
    return (path, ← systemContents path)
  let read := fun path => (contents.lookup path).getD (.error .notFound)
  let stdin ←
    if invocation.file.isSome then pure ByteArray.empty
    else (← IO.getStdin).readBinToEnd
  let failure := fun cause : RunError => do
    IO.eprint (errorLine cause.message)
    return 1
  match invocation.outputText Settings.ofString ownFile stdin read with
  | none => return 134
  | some (.error cause) => failure cause
  | some (.ok text) =>
    match invocation.output with
    | none =>
      IO.println text
      return 0
    | some path =>
      try
        IO.FS.writeFile path text
        return 0
      catch error => failure (.write path (.ofSystem error))

end PlainSheet

/-- Runs the command with the arguments of the process. -/
def main (arguments : List String) : IO UInt32 := do
  match PlainSheet.Invocation.ofArguments arguments with
  | .error cause =>
    IO.eprint (PlainSheet.errorLine cause.message ++ PlainSheet.usage)
    return 1
  | .ok invocation =>
    if invocation.help then
      IO.eprint PlainSheet.usage
      return 0
    else invocation.runOnSystem
