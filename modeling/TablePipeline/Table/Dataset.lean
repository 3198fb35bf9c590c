import TablePipeline.Table
/-!
# Tables as JSON

A dataset is an array of objects with scalar members, one object to a row.
-/

namespace TablePipeline

/-- The row of an object. -/
def Row.ofMembers (members : List (String × Json)) : Except Error Row := do
  let cells ← members.mapM fun (column, cell) => do return (column, ← Value.ofJson cell)
  return .ofList cells

/-- A row as an object. -/
def Row.toJson (row : Row) : Json := .object (row.mapValues Value.toJson).entries

namespace Table

/-- The rows of the items of an array, counted from `i`. -/
def rowsOfItems : Nat → List Json → Except Error (List Row)
  | _, [] => .ok []
  | i, item :: rest =>
    match item with
    | .object members => do
      let row ← Row.ofMembers members
      return row :: (← rowsOfItems (i + 1) rest)
    | _ => .error (.invalidDataset (.notObject i))

/-- The table of a dataset. -/
def ofJson : Json → Except Error Table
  | .array items => do ofRows (← rowsOfItems 0 items)
  | _ => .error (.invalidDataset .notArray)

/-- Some rows as an array of objects. -/
def rowsToJson (rows : List Row) : Json := .array (rows.map Row.toJson)

/-- The rows of a table as an array of objects. -/
def toJson (t : Table) : Json := rowsToJson t.rows

end Table

end TablePipeline
