import TablePipeline.CommandLine
/-!
# The program

Reads the arguments and the environment, runs the command and prints what it leaves.
-/

open TablePipeline.CommandLine

/-- Why the system could not read a file. -/
def readFailure : IO.Error → ReadFailure
  | .noFileOrDirectory .. => .notFound
  | .inappropriateType _ 20 _ => .notDirectory
  | .inappropriateType _ 21 _ => .isDirectory
  | .invalidArgument _ 36 _ => .nameTooLong
  | .userError _ => .other "stream did not contain valid UTF-8"
  | e => .other (toString e)

/-- Reads a file. -/
def readFile (path : String) : IO (Except ReadFailure String) := do
  try
    return .ok (← IO.FS.readFile path)
  catch e =>
    return .error (readFailure e)

/-- The file that settings are read from if none is named. -/
def usualSettings : IO (Option String) := do
  let file := "/blockflow/config.toml"
  match ← IO.getEnv "XDG_CONFIG_HOME" with
  | some directory =>
    if directory.startsWith "/" then return some (directory ++ file)
  | none => pure ()
  return (← IO.getEnv "HOME").map (· ++ "/.config" ++ file)

/-- Runs the command on the arguments of the process. -/
def main (arguments : List String) : IO UInt32 := do
  match Request.ofArguments (← IO.getEnv "BLOCKFLOW_CONFIG") arguments with
  | .version =>
    IO.print versionLine
    return 0
  | .help =>
    IO.print usage
    return 0
  | .misuse =>
    IO.eprint usage
    return 2
  | .invoke i =>
    let outcome ← execute readFile (← usualSettings) i
    IO.print outcome.output
    IO.eprint outcome.errors
    return UInt32.ofNat outcome.status
