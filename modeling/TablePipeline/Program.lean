import TablePipeline.Expr
import TablePipeline.Plot
/-!
# Programs

A program is a list of pipelines, a pipeline a list of stages. Each stage takes the table that the
stage before it made. A source stage makes a table of its own.
-/

namespace TablePipeline

/-- One step of a pipeline. -/
inductive Stage
  | load (source : String)
  | select (columns : NameSet)
  | filter (predicate : Expr)
  | mutate (column : String) (value : Expr)
  | group (column : String)
  | summarize (aggregates : List Expr)
  | notify (name : String)
  | join (leftName leftColumn rightName rightColumn : String)
  | visualize (plot : Plot)
deriving BEq, DecidableEq

/-- The stage takes no table from the stage before it. -/
def Stage.isSource : Stage → Bool
  | .load _ | .join .. => true
  | _ => false

/-- The stage shows a plot. -/
def Stage.isPlot : Stage → Bool
  | .visualize _ => true
  | _ => false

/-- Stages that run one after the other on one table. -/
abbrev Pipeline := List Stage

/-- Pipelines that run one after the other. -/
abbrev Program := List Pipeline

end TablePipeline
