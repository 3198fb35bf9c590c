import TablePipeline.Operator
import TablePipeline.Table
import TablePipeline.Value.Aggregate
import TablePipeline.Value.Arithmetic
/-!
# Expressions

An expression computes a value from one row (`Expr.onRow`), or, if it is an aggregate, from a list
of rows (`Expr.onRows`).
-/

namespace TablePipeline

/-- A computation of one value. -/
inductive Expr
  | literal (v : Value)
  | column (name : String)
  | compare (op : CompareOp) (left right : Expr)
  | arithmetic (op : ArithmeticOp) (left right : Expr)
  | aggregate (function : AggregateFn) (column : String)
deriving BEq, DecidableEq

namespace Expr

/-- The value of an expression on a row. An aggregate has none. -/
def onRow (row : Row) : Expr → Except Error Value
  | .literal v => .ok v
  | .column name => row.cell name
  | .compare op left right => do
    let a ← left.onRow row
    let b ← right.onRow row
    return .bool (← op.apply a b)
  | .arithmetic op left right => do
    let a ← left.onRow row
    let b ← right.onRow row
    op.apply a b
  | .aggregate function _ => .error (.typeMismatch function.code "row" "column")

/-- What is wrong with an expression of rows where an aggregate is expected. -/
def notAggregate : Error := .typeMismatch "summarize" "column" "row expression"

/-- The value of an aggregate on some rows. -/
def onRows (rows : List Row) : Expr → Except Error Value
  | .aggregate function name => do function.apply (← cellsOf rows name)
  | _ => .error notAggregate

end Expr

end TablePipeline
