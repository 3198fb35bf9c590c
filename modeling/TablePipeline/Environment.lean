import TablePipeline.Catalog
import TablePipeline.Plot
/-!
# What programs run in

An environment holds the catalog, the tables registered so far, the log and everything displayed so
far. A program leaves the catalog as it is.
-/

namespace TablePipeline

/-- How grave a log entry is. -/
inductive Severity
  | info
  | warn
  | error
deriving DecidableEq, Repr

/-- The word for a severity. -/
def Severity.word : Severity → String
  | .info => "info"
  | .warn => "warn"
  | .error => "error"

/-- An entry of the log. -/
structure LogEntry where
  severity : Severity
  message : String
deriving DecidableEq, Repr

/-- The entry as a line of text. -/
def LogEntry.line (e : LogEntry) : String := "[" ++ e.severity.word ++ "] " ++ e.message

/-- Something displayed: the rows of a table, or a plot. -/
inductive Exhibit
  | table (rows : List Row)
  | plot (spec : PlotSpec)
deriving DecidableEq

/-- The rows of a displayed table. -/
def Exhibit.table? : Exhibit → Option (List Row)
  | .table rows => some rows
  | .plot _ => none

/-- A displayed plot. -/
def Exhibit.plot? : Exhibit → Option PlotSpec
  | .table _ => none
  | .plot spec => some spec

/-- What a program finds and what it leaves. Log entries and exhibits are in order of arrival. -/
structure Environment where
  catalog : Catalog
  registry : NameMap Table
  log : List LogEntry
  display : List Exhibit
deriving DecidableEq

namespace Environment

/-- An environment in which nothing has run. -/
def fresh (catalog : Catalog) : Environment :=
  { catalog, registry := ∅, log := [], display := [] }

/-- Registers a table, in place of the one that had the name. -/
def register (env : Environment) (name : String) (t : Table) : Environment :=
  { env with registry := env.registry.insert name t }

/-- The table registered under a name. -/
def lookup (env : Environment) (name : String) : Except Error Table :=
  match env.registry.get? name with
  | some t => .ok t
  | none => .error (.unregisteredName name)

/-- Adds an entry to the log. -/
def write (env : Environment) (severity : Severity) (message : String) : Environment :=
  { env with log := env.log ++ [{ severity, message }] }

/-- Displays the rows of a table. -/
def showTable (env : Environment) (t : Table) : Environment :=
  { env with display := env.display ++ [.table t.rows] }

/-- Displays a plot. -/
def showPlot (env : Environment) (spec : PlotSpec) : Environment :=
  { env with display := env.display ++ [.plot spec] }

/-- The tables displayed. -/
def tables (env : Environment) : List (List Row) := env.display.filterMap Exhibit.table?

/-- The plots displayed. -/
def plots (env : Environment) : List PlotSpec := env.display.filterMap Exhibit.plot?

end Environment

end TablePipeline
