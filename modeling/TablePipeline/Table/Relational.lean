import TablePipeline.Expr
/-!
# Operations on tables

Projection, selection, computed columns, grouping, summaries and joins. Each makes a new table, and
none but `group` leaves groups behind.
-/

namespace TablePipeline

namespace Table

/-- The part of a row in some columns. -/
def project (columns : NameSet) (row : Row) : Except Error Row := do
  let cells ← columns.names.mapM fun column => do return (column, ← row.cell column)
  return .ofList cells

/-- Keeps some columns of every row. -/
def select (columns : NameSet) (t : Table) : Except Error Table := do
  columns.names.forM t.requireColumn
  ofRows (← t.rows.mapM (project columns))

/-- Keeps the rows on which an expression counts as true. -/
def filter (predicate : Expr) (t : Table) : Except Error Table := do
  ofRows (← t.rows.filterM fun row => do return (← predicate.onRow row).isTruthy)

/-- Sets a column to the value of an expression, row by row. -/
def mutate (column : String) (value : Expr) (t : Table) : Except Error Table := do
  ofRows (← t.rows.mapM fun row => do return row.insert column (← value.onRow row))

/-- A key and the rows that have it. -/
abbrev Bucket := Value × List Row

/-- Adds a row to the first bucket of its key, or to a new one at the end. -/
def addToBuckets (key : Value) (row : Row) : List Bucket → List Bucket
  | [] => [(key, [row])]
  | (k, rows) :: rest =>
    if k.sameKey key then (k, rows ++ [row]) :: rest else (k, rows) :: addToBuckets key row rest

/-- A row with its key moved from a column into the index. -/
def indexBy (column : String) (row : Row) : Except Error (Value × Row) := do
  let key ← row.cell column
  return (key, (row.erase column).insert indexColumn key)

/-- Sorts the rows into buckets by their cells in a column. -/
def buckets (column : String) (rows : List Row) : Except Error (List Bucket) :=
  rows.foldlM (fun acc row => do
    let (key, row) ← indexBy column row
    return addToBuckets key row acc) []

/-- The groups of some buckets whose rows follow each other, the first from `start` on. -/
def groupsOf : Nat → List Bucket → List Group
  | _, [] => []
  | start, (key, rows) :: rest =>
    { key, start, stop := start + rows.length } :: groupsOf (start + rows.length) rest

/-- Brings rows with the same key together, the keys in order of their first rows. -/
def group (column : String) (t : Table) : Except Error Table := do
  t.requireColumn column
  let bs ← buckets column t.rows
  return { rows := bs.flatMap (·.2), groups := some (groupsOf 0 bs) }

/-- The column of an aggregate in a summary: its own column, with the function added if another
one has that name. -/
def summaryName (used : List String) (function : AggregateFn) (column : String) : String :=
  if column ∈ used then column ++ "_" ++ function.code else column

/-- The columns of the aggregates in a summary that has some columns already. -/
def summaryNames (used : List String) : List Expr → Except Error (List String)
  | [] => .ok []
  | .aggregate function column :: rest => do
    let name := summaryName used function column
    return name :: (← summaryNames (name :: used) rest)
  | _ :: _ => .error Expr.notAggregate

/-- The aggregates of some rows under their columns. -/
def summaryRow (aggregates : List Expr) (names : List String) (rows : List Row) :
    Except Error Row := do
  let cells ← (names.zip aggregates).mapM fun (name, aggregate) => do
    return (name, ← aggregate.onRows rows)
  return .ofList cells

/-- One row of aggregates for each group, or for the whole table if it is not grouped. -/
def summarize (aggregates : List Expr) (t : Table) : Except Error Table := do
  let names ← summaryNames [indexColumn] aggregates
  match t.groups with
  | some groups =>
    ofRows (← groups.mapM fun g => do
      return (← summaryRow aggregates names (t.groupRows g)).insert indexColumn g.key)
  | none => ofRows [← summaryRow aggregates names t.rows]

/-- The column that holds the key of a joined row. -/
def joinColumn : String := "_join_"

/-- The columns of a row but one, renamed. -/
def renamed (rename : String → String) (key : String) (row : Row) : List (String × Value) :=
  (row.erase key).entries.map fun (column, v) => (rename column, v)

/-- The name that a column of the left table has in a join. -/
def leftName (column : String) : String := "left_" ++ column

/-- The name that a column of the right table has in a join. -/
def rightName (column : String) : String := "right_" ++ column

/-- One row out of two that match. -/
def joinedRow (key : Value) (leftColumn : String) (l : Row) (rightColumn : String) (r : Row) :
    Row :=
  .ofList ((joinColumn, key) :: renamed leftName leftColumn l ++ renamed rightName rightColumn r)

/-- The keys of two rows match. Missing keys match nothing. -/
def keysMatch (a b : Value) : Bool := !a.isMissing && a.sameKey b

/-- The rows that a row of the left table makes with those of the right one. -/
def joinRow (leftColumn : String) (right : List Row) (rightColumn : String) (l : Row) :
    Except Error (List Row) := do
  let key ← l.cell leftColumn
  let matching ← right.filterM fun r => do return keysMatch key (← r.cell rightColumn)
  return matching.map (joinedRow key leftColumn l rightColumn)

/-- The pairs of rows with matching keys, in the order of the left table and then of the right. -/
def join (left : Table) (leftColumn : String) (right : Table) (rightColumn : String) :
    Except Error Table := do
  let rows ← left.rows.mapM (joinRow leftColumn right.rows rightColumn)
  return { rows := rows.flatten }

end Table

end TablePipeline
