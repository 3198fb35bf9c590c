import TablePipeline.CommandLine.Arguments
import TablePipeline.CommandLine.Files
import TablePipeline.Json.Writer
import TablePipeline.Settings
import TablePipeline.Workspace.Reader
/-!
# The command

`execute` does what an invocation asks for and collects what is to be printed. It reads files
through a function that it is given. The status is 0, or 1 if something went wrong.
-/

namespace TablePipeline.CommandLine

/-- What a command leaves: its status and what it prints. -/
structure Outcome where
  status : Nat
  output : String
  errors : String
deriving DecidableEq, Repr

/-- The name and the version of the command. -/
def versionLine : String := "blockflow 0.1.0\n"

/-- Lines of text, each with its line break. -/
def lines (ls : List String) : String := String.join (ls.map (· ++ "\n"))

/-- How to use the command. -/
def usage : String := lines
  ["Compile and run block-built data programs",
    "",
    "Usage: blockflow [OPTIONS] <COMMAND>",
    "",
    "Commands:",
    "  run <PROGRAM>        Compile and run a saved block program",
    "  check <PROGRAM>      Compile a saved block program without running it",
    "  datasets             List the built-in datasets",
    "",
    "Options:",
    "  --config <FILE>      Path to a TOML config file",
    "  --format <FORMAT>    Output format for results: text or json",
    "  --log-level <LEVEL>  Accepted, there is no trace",
    "  -h, --help           Print help",
    "  -V, --version        Print version"]

/-- An outcome that prints and succeeds. -/
def printed (output : String) : Outcome := { status := 0, output, errors := "" }

/-- The line that reports what went wrong. -/
def errorLine (message : String) : String := "error: " ++ message ++ "\n"

/-- An outcome that reports what went wrong. -/
def failed (message : String) : Outcome := { status := 1, output := "", errors := errorLine message }

/-- Loads the settings from the file that is named, or from the usual one if it is there. -/
def loadSettings {m : Type → Type} [Monad m] (read : String → m (Except ReadFailure String))
    (usual : Option String) (named : Option String) : m (Except String RunOptions) := do
  let parse (path text : String) : Except String RunOptions :=
    (Settings.parse text).mapError fun fault => settingsMessage (path ++ ": " ++ fault.reason)
  let unreadable (path : String) (why : ReadFailure) : Except String RunOptions :=
    .error (settingsMessage ("failed to read " ++ path ++ ": " ++ why.reason))
  match named, usual with
  | some path, _ =>
    match ← read path with
    | .ok text => return parse path text
    | .error why => return unreadable path why
  | none, some path =>
    match ← read path with
    | .ok text => return parse path text
    | .error why => return if why.isAbsent then .ok {} else unreadable path why
  | none, none => return .ok {}

/-- What is wrong with a text that holds no workspace. A text of blanks ends too early. -/
def malformed (text : String) : String :=
  let cs := text.toList
  if cs.all Json.Raw.isBlank then
    let line := 1 + cs.count '\n'
    let column := (cs.reverse.takeWhile (· ≠ '\n')).length
    "EOF while parsing a value at line " ++ toString line ++ " column " ++ toString column
  else "malformed workspace"

/-- Loads a workspace. -/
def loadWorkspace {m : Type → Type} [Monad m] (read : String → m (Except ReadFailure String))
    (path : String) : m (Except String Workspace) := do
  match ← read path with
  | .error why => return .error ("failed to read " ++ path ++ ": " ++ why.reason)
  | .ok text =>
    match Workspace.parse? text with
    | some w => return .ok w
    | none => return .error (malformed text)

/-- A row as a line of columns and cells. -/
def rowLine (row : Row) : String :=
  "  " ++ " ".intercalate (row.entries.map fun (column, v) => column ++ "=" ++ v.display)

/-- Numbers the items of a list from zero. -/
def numbered {α : Type} (items : List α) : List (Nat × α) := (List.range items.length).zip items

/-- The tables and plots of a run, as text. -/
def exhibitText (env : Environment) : String :=
  lines ((numbered env.tables).flatMap fun (i, rows) =>
    ("Table " ++ toString i ++ " (" ++ toString rows.length ++ " rows):") :: rows.map rowLine)
  ++ lines ((numbered env.plots).flatMap fun (i, spec) =>
    ["Plot " ++ toString i ++ ":", spec.toJson.pretty])

/-- A run as JSON. The strays are unknown if it failed. -/
def runJson (env : Environment) (result : Except Error RunReport) : Json :=
  let stray := match result with
    | .ok report => .ofNat report.strayCount
    | .error _ => .null
  .record
    [("ok", .bool result.isOk), ("tables", .array (env.tables.map Table.rowsToJson)),
      ("plots", .array (env.plots.map PlotSpec.toJson)),
      ("log", .array (env.log.map fun e => .record
        [("severity", .string e.severity.word), ("message", .string e.message)])),
      ("stray_count", stray)]

/-- Runs a workspace and reports on it. As text, the log is printed too: information with the
output, the rest with the errors. -/
def runWorkspace (format : Format) (options : RunOptions) (w : Workspace) : Outcome :=
  let (env, result) := w.run options (.fresh Catalog.standard)
  let (status, last) := match result with
    | .ok _ => (0, "")
    | .error e => (1, errorLine e.message)
  match format with
  | .json => { status, output := lines [(runJson env result).pretty], errors := last }
  | .text =>
    let (info, grave) := env.log.partition (·.severity = .info)
    { status
      output := exhibitText env ++ lines (info.map LogEntry.line)
      errors := lines (grave.map LogEntry.line) ++ last }

/-- Compiles a workspace and counts what is in it. -/
def checkWorkspace (format : Format) (options : RunOptions) (w : Workspace) : Outcome :=
  match w.compile options.defaultBins with
  | .error cause => failed (Error.compile cause).message
  | .ok c =>
    let pipelines := c.program.length
    let stages := c.program.flatten.length
    match format with
    | .json => printed (lines [(Json.record
        [("pipelines", .ofNat pipelines), ("stages", .ofNat stages),
          ("stray_count", .ofNat c.strayCount)]).pretty])
    | .text => printed (lines
        [toString pipelines ++ " pipelines, " ++ toString stages ++ " stages, "
          ++ toString c.strayCount ++ " stray stacks"])

/-- Lists the datasets of the standard catalog. -/
def listDatasets (format : Format) : Outcome :=
  let entries := Catalog.standard.entries
  match format with
  | .json => printed (lines [(Json.array (entries.map fun (name, t) => .record
      [("name", .string name), ("rows", .ofNat t.size),
        ("columns", .array (t.columns.map .string))])).pretty])
  | .text => printed (lines (entries.map fun (name, t) =>
      name ++ ": " ++ toString t.size ++ " rows [" ++ ", ".intercalate t.columns ++ "]"))

/-- Loads a workspace and goes on with it. -/
def withWorkspace {m : Type → Type} [Monad m] (read : String → m (Except ReadFailure String))
    (path : String) (next : Workspace → Outcome) : m Outcome := do
  match ← loadWorkspace read path with
  | .error message => return failed message
  | .ok w => return next w

/-- Does what an invocation asks for. The settings are loaded first. -/
def execute {m : Type → Type} [Monad m] (read : String → m (Except ReadFailure String))
    (usualSettings : Option String) (i : Invocation) : m Outcome := do
  match ← loadSettings read usualSettings i.settings with
  | .error message => return failed message
  | .ok options =>
    match i.command with
    | .run path => withWorkspace read path (runWorkspace i.format options)
    | .check path => withWorkspace read path (checkWorkspace i.format options)
    | .datasets => return listDatasets i.format

end TablePipeline.CommandLine
