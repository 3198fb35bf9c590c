import TablePipeline.NameMap
import TablePipeline.Value
/-!
# Tables

A table is a list of rows, a row binds column names to cells. `Table.ofRows` accepts rows that all
have the columns of the first one. A grouped table also says which stretches of its rows belong
together.
-/

namespace TablePipeline

/-- The cells of a row by column. -/
abbrev Row := NameMap Value

/-- The column that holds the key of a group. -/
def indexColumn : String := "Index"

/-- A group: its key and the stretch of rows from `start` up to `stop`. -/
structure Group where
  key : Value
  start : Nat
  stop : Nat
deriving DecidableEq

/-- Rows, and the groups they fall into if the table is grouped. -/
structure Table where
  rows : List Row
  groups : Option (List Group) := none
deriving DecidableEq

/-- The cell of a row in a column. -/
def Row.cell (row : Row) (column : String) : Except Error Value :=
  match row.get? column with
  | some v => .ok v
  | none => .error (.unknownColumn column)

/-- The cells of some rows in a column. -/
def cellsOf (rows : List Row) (column : String) : Except Error (List Value) :=
  rows.mapM (·.cell column)

namespace Table

/-- The table without rows. -/
def empty : Table := { rows := [] }

instance : Inhabited Table := ⟨empty⟩

/-- The first row, counted from `i`, whose columns are not the expected ones. -/
def firstMisfit (expected : List String) : Nat → List Row → Option (Nat × Row)
  | _, [] => none
  | i, row :: rest =>
    if row.names = expected then firstMisfit expected (i + 1) rest else some (i, row)

/-- The table of some rows, which all have to have the columns of the first one. -/
def ofRows : List Row → Except Error Table
  | [] => .ok empty
  | first :: rest =>
    match firstMisfit first.names 1 rest with
    | none => .ok { rows := first :: rest }
    | some (i, row) => .error (.schemaMismatch i first.names row.names)

/-- The rows without groups. -/
def ungrouped (t : Table) : Table := { rows := t.rows }

/-- The number of rows. -/
def size (t : Table) : Nat := t.rows.length

/-- The columns of the first row. -/
def columns (t : Table) : List String :=
  match t.rows with
  | [] => []
  | first :: _ => first.names

/-- Fails if the first row does not have a column. -/
def requireColumn (t : Table) (column : String) : Except Error Unit :=
  match t.rows with
  | [] => .ok ()
  | first :: _ => if first.contains column then .ok () else .error (.unknownColumn column)

/-- The cells of a column. -/
def cells (t : Table) (column : String) : Except Error (List Value) := cellsOf t.rows column

/-- The rows of a group. -/
def groupRows (t : Table) (g : Group) : List Row := (t.rows.drop g.start).take (g.stop - g.start)

end Table

end TablePipeline
