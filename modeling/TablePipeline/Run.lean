import TablePipeline.Environment
import TablePipeline.Program
import TablePipeline.Table.Relational
import TablePipeline.Workspace.Compile
/-!
# Running programs

Pipelines run in order and so do their stages, each on the table of the one before. The first stage
that fails ends the run. What was registered, displayed and logged until then remains.
-/

namespace TablePipeline

/-- Choices for a run. -/
structure RunOptions where
  /-- Display the last table of every pipeline that does not end in a plot. -/
  displayResults : Bool := true
  /-- Log the start and the end of every pipeline. -/
  verbose : Bool := false
  /-- The bins of a histogram that does not say how many. -/
  defaultBins : Nat := Workspace.standardBins
deriving DecidableEq, Repr

/-- What has been run. -/
structure RunReport where
  pipelinesRun : Nat
  strayCount : Nat
deriving DecidableEq, Repr

/-- Runs a stage on a table. A stage that fails leaves no trace. -/
def Stage.run (env : Environment) (input : Table) : Stage → Except Error (Environment × Table)
  | .load source => do return (env, ← env.catalog.load source)
  | .select columns => do return (env, ← input.select columns)
  | .filter predicate => do return (env, ← input.filter predicate)
  | .mutate column value => do return (env, ← input.mutate column value)
  | .group column => do return (env, ← input.group column)
  | .summarize aggregates => do return (env, ← input.summarize aggregates)
  | .notify name => .ok (env.register name input.ungrouped, input.ungrouped)
  | .join leftName leftColumn rightName rightColumn => do
    let left ← env.lookup leftName
    let right ← env.lookup rightName
    return (env, ← left.join leftColumn right rightColumn)
  | .visualize plot => do
    let spec ← plot.spec input
    return ((env.showTable input).showPlot spec, input.ungrouped)

namespace Pipeline

/-- Runs stages from a table on. -/
def runFrom (env : Environment) (input : Table) : List Stage → Environment × Except Error Table
  | [] => (env, .ok input)
  | stage :: rest =>
    match stage.run env input with
    | .ok (env, output) => runFrom env output rest
    | .error e => (env, .error e)

/-- The last stage shows a plot. -/
def endsInPlot (p : Pipeline) : Bool := p.getLast?.any Stage.isPlot

/-- Runs a pipeline from the table without rows and displays its last table, if it is wanted and
the pipeline does not end in a plot. -/
def run (options : RunOptions) (env : Environment) (p : Pipeline) :
    Environment × Except Error Unit :=
  match runFrom env Table.empty p with
  | (env, .ok output) =>
    (if options.displayResults && !endsInPlot p then env.showTable output else env, .ok ())
  | (env, .error e) => (env, .error e)

end Pipeline

namespace Program

/-- How the log calls a pipeline. -/
def title (index : Nat) : String := "pipeline " ++ toString index

/-- Logs something that is logged only on request. -/
def note (options : RunOptions) (env : Environment) (message : String) : Environment :=
  if options.verbose then env.write .info message else env

/-- Runs pipelines, counted from the given one, and returns their number. -/
def runFrom (options : RunOptions) (env : Environment) :
    Nat → Program → Environment × Except Error Nat
  | index, [] => (env, .ok index)
  | index, p :: rest =>
    match Pipeline.run options (note options env (title index ++ " started")) p with
    | (env, .ok ()) =>
      runFrom options (note options env (title index ++ " finished")) (index + 1) rest
    | (env, .error e) => (env.write .error (title index ++ ": " ++ e.logText), .error e)

/-- Runs a program. -/
def run (options : RunOptions) (env : Environment) (p : Program) :
    Environment × Except Error RunReport :=
  match runFrom options env 0 p with
  | (env, .ok n) => (env, .ok { pipelinesRun := n, strayCount := 0 })
  | (env, .error e) => (env, .error e)

end Program

/-- Runs the program of a workspace. Stray stacks are logged, and so is a workspace that has no
program. -/
def Workspace.run (options : RunOptions) (env : Environment) (w : Workspace) :
    Environment × Except Error RunReport :=
  match w.compile options.defaultBins with
  | .error cause =>
    let e := Error.compile cause
    (env.write .error e.logText, .error e)
  | .ok c =>
    let env := if 0 < c.strayCount then
        env.write .warn (toString c.strayCount ++ " stray stacks found")
      else env
    match Program.run options env c.program with
    | (env, .ok report) => (env, .ok { report with strayCount := c.strayCount })
    | (env, .error e) => (env, .error e)

end TablePipeline
