import TablePipeline.Program
import TablePipeline.Workspace
/-!
# Workspaces out of programs

Every pipeline becomes a stack, every stage a block and every expression a block plugged in. The
blocks have no names.
-/

namespace TablePipeline

namespace Block

/-- A block that names a column. -/
def ofColumn (name : String) : Block := ofFields "variable_column" [("TEXT", .text name)]

/-- A block that holds a number. -/
def ofNumber (n : Json.Number) : Block := ofFields "variable_number" [("NUM", .number n)]

/-- A block that holds a double. One that is not finite is kept as text. -/
def ofFloat (x : Float) : Block :=
  match Json.Number.ofFloat? x with
  | some n => ofNumber n
  | none => ofFields "variable_number" [("NUM", .text (Value.float x).display)]

/-- A block that holds a value. -/
def ofValue : Value → Block
  | .missing => ofFields "variable_missing" []
  | .bool b => ofFields "logic_boolean" [("BOOL", .text (if b then "TRUE" else "FALSE"))]
  | .int n => ofNumber (.ofSigned n)
  | .float x => ofFloat x
  | .text s => ofFields "variable_text" [("TEXT", .text s)]

/-- The block of an expression. -/
def ofExpr : Expr → Block
  | .literal v => ofValue v
  | .column name => ofColumn name
  | .compare op left right => ofFields "variable_compare"
      [("OP", .text op.code), ("A", .block (ofExpr left)), ("B", .block (ofExpr right))]
  | .arithmetic op left right => ofFields "stats_arithmetic"
      [("OP", .text op.code), ("A", .block (ofExpr left)), ("B", .block (ofExpr right))]
  | .aggregate function column => ofFields ("stats_" ++ function.code)
      [("Column", .block (ofColumn column))]

/-- The block of a plot. -/
def ofPlot : Plot → Block
  | .histogram column bins => ofFields "ggplot_hist"
      [("Column", .block (ofColumn column)), ("bins", .block (ofNumber (.unsigned bins.toUInt64)))]
  | .bar x y => ofFields "ggplot_bar"
      [("X_axis", .block (ofColumn x)), ("Y_axis", .block (ofColumn y))]
  | .scatter x y color => ofFields "ggplot_point"
      (("X_axis", .block (ofColumn x)) :: ("Y_axis", .block (ofColumn y)) ::
        (color.map fun c => ("color", .block (ofColumn c))).toList)

/-- The block of a stage. -/
def ofStage : Stage → Block
  | .load source => ofFields "data_user" [("name", .text source)]
  | .select columns => ofFields "dplyr_select"
      [("Column", .blocks (columns.names.map ofColumn))]
  | .filter predicate => ofFields "dplyr_filter" [("Column", .block (ofExpr predicate))]
  | .mutate column value => ofFields "dplyr_mutate"
      [("newCol", .text column), ("Column", .block (ofExpr value))]
  | .group column => ofFields "dplyr_groupby" [("Column", .block (ofColumn column))]
  | .summarize aggregates => ofFields "dplyr_summarize"
      [("Column", .blocks (aggregates.map ofExpr))]
  | .notify name => ofFields "plumbing_notify" [("name", .text name)]
  | .join leftName leftColumn rightName rightColumn => ofFields "plumbing_join"
      [("leftName", .text leftName), ("leftColumn", .block (ofColumn leftColumn)),
        ("rightName", .text rightName), ("rightColumn", .block (ofColumn rightColumn))]
  | .visualize plot => ofPlot plot

end Block

/-- The workspace of a program. A pipeline without stages leaves nothing behind. -/
def Workspace.ofProgram (p : Program) : Workspace := .ofChains (p.map (·.map Block.ofStage))

end TablePipeline
