import TablePipeline.Proofs.Columns
import TablePipeline.Proofs.JsonValues
import TablePipeline.Table.Dataset
/-!
# Tables and JSON

A row is written as an object with its columns (`Row.WrittenAs`). A table whose rows have the same
columns is read again after it is written, with each cell reloaded (`Table.Reloads`). What has been
read once does not change any more, whichever dataset it was read from (`Table.json_round_trip`).
-/

namespace TablePipeline

open Outcome

/-! ### Rows -/

/-- The rows have the same columns, and the cells of the second one are those of the first one
reloaded. -/
structure Row.Reloads (row read : Row) : Prop where
  names : read.names = row.names
  cells : ∀ column v, row.get? column = some v →
    ∃ w, read.get? column = some w ∧ v.Reloads w

namespace Row

/-- The row with every cell reloaded. -/
def reloaded (row : Row) : Row := row.mapValues Value.reloaded

theorem names_reloaded (row : Row) : row.reloaded.names = row.names := by
  rw [reloaded, NameMap.names, NameMap.mapValues, List.map_map]
  rfl

theorem reloads_reloaded (row : Row) : row.Reloads row.reloaded where
  names := row.names_reloaded
  cells column v h := by
    refine ⟨v.reloaded, ?_, v.reloads_reloaded⟩
    rw [reloaded, NameMap.get?_mapValues, h]
    rfl

theorem ofMembers_eq (members : List (String × Json)) : ofMembers members
    = (do return .ofList (← members.mapM fun e => do return (e.1, ← Value.ofJson e.2))) := rfl

theorem ofMembers_toJson (row : Row) :
    ofMembers (row.mapValues Value.toJson).entries = .ok row.reloaded := by
  have hcells : (row.mapValues Value.toJson).entries.mapM
      (fun e => do return (e.1, ← Value.ofJson e.2)) = .ok row.reloaded.entries := by
    rw [NameMap.mapValues, List.mapM_map]
    refine mapM_eq_ok_map fun e _ => ?_
    change (do return (e.1, ← Value.ofJson e.2.toJson)) = Except.ok (e.1, e.2.reloaded)
    rw [Value.ofJson_toJson]
    rfl
  rw [ofMembers_eq, hcells, ok_bind]
  exact congrArg Except.ok row.reloaded.ofList_entries

/-- A row is written as an object that has its columns, in order, with their cells as values. -/
inductive WrittenAs (row : Row) : Json → Prop
  | object {members : List (String × Json)}
      (cells : List.Forall₂ (fun cell member => member.1 = cell.1 ∧ cell.2.WrittenAs member.2)
        row.entries members) : WrittenAs row (.object members)

theorem writtenAs_toJson (row : Row) : row.WrittenAs row.toJson := by
  refine .object ?_
  rw [NameMap.mapValues, List.forall₂_map_right_iff]
  exact List.forall₂_same.mpr fun cell _ => ⟨rfl, cell.2.writtenAs_toJson⟩

theorem forall₂_writtenAs (rows : List Row) :
    List.Forall₂ WrittenAs rows (rows.map Row.toJson) :=
  List.forall₂_map_right_iff.mpr (List.forall₂_same.mpr fun row _ => row.writtenAs_toJson)

/-- All cells stay as they are when they are reloaded. -/
def Settled (row : Row) : Prop := ∀ e ∈ row.entries, e.2.reloaded = e.2

theorem Settled.reloaded_eq {row : Row} (h : row.Settled) : row.reloaded = row := by
  obtain ⟨entries, sorted⟩ := row
  have hentries : entries.map (fun e => (e.1, e.2.reloaded)) = entries.map id :=
    List.map_congr_left fun e he => Prod.ext rfl (h e he)
  simp only [reloaded, NameMap.mapValues, hentries, List.map_id]

/-- What is read of an object is settled. -/
theorem settled_of_ofMembers {members : List (String × Json)} {row : Row}
    (h : ofMembers members = .ok row) : row.Settled := by
  obtain ⟨cells, hcells, h⟩ := bind_eq_ok.mp h
  obtain rfl := pure_eq_ok.mp h
  intro e he
  obtain ⟨member, -, hmember⟩ := mem_of_mapM_ok hcells (mem_of_mem_sortByName he)
  obtain ⟨v, hv, hmember⟩ := bind_eq_ok.mp hmember
  obtain rfl := pure_eq_ok.mp hmember
  exact Value.reloaded_of_ofJson hv

end Row

namespace Table

/-! ### Tables -/

/-- The second table is ungrouped and has the rows and the columns of the first one, reloaded. -/
structure Reloads (t read : Table) : Prop where
  ungrouped : read.groups = none
  rows : List.Forall₂ Row.Reloads t.rows read.rows
  columns : read.columns = t.columns

variable {t : Table} {columns : NameSet} {rows : List Row}

theorem rowsOfItems_toJson (i : Nat) (rows : List Row) :
    rowsOfItems i (rows.map Row.toJson) = .ok (rows.map Row.reloaded) := by
  induction rows generalizing i with
  | nil => rfl
  | cons row rest ih =>
    rw [List.map_cons, Row.toJson, rowsOfItems, Row.ofMembers_toJson, ok_bind, ih]
    rfl

/-- What is read of a table that is written. -/
theorem ofJson_toJson_eq (h : t.HasColumns columns) :
    ofJson t.toJson = .ok { rows := t.rows.map Row.reloaded } := by
  change (do ofRows (← rowsOfItems 0 (t.rows.map Row.toJson))) = _
  rw [rowsOfItems_toJson, ok_bind]
  have hread : ∀ read ∈ t.rows.map Row.reloaded, read.nameSet = columns := by
    intro read hread
    obtain ⟨row, hrow, rfl⟩ := List.mem_map.mp hread
    rw [NameMap.nameSet_eq_iff.mpr row.names_reloaded, h row hrow]
  exact ofRows_of_hasColumns hread

theorem reloads_reloaded (t : Table) : t.Reloads { rows := t.rows.map Row.reloaded } where
  ungrouped := rfl
  rows := List.forall₂_map_right_iff.mpr (List.forall₂_same.mpr fun row _ => row.reloads_reloaded)
  columns := by
    obtain ⟨_ | ⟨first, rest⟩, groups⟩ := t
    · rfl
    · exact first.names_reloaded

theorem names_of_firstMisfit {expected : List String} {i : Nat}
    (h : firstMisfit expected i rows = none) : ∀ row ∈ rows, row.names = expected := by
  induction rows generalizing i with
  | nil => exact nofun
  | cons row rest ih =>
    rw [firstMisfit] at h
    split at h
    · next hrow => exact List.forall_mem_cons.mpr ⟨hrow, ih h⟩
    · cases h

theorem exists_hasColumns (h : ofRows rows = .ok t) : ∃ columns, t.HasColumns columns := by
  obtain rfl := ofRows_eq h
  cases rows with
  | nil => exact ⟨∅, nofun⟩
  | cons first rest =>
    rw [ofRows] at h
    split at h
    · next hfit =>
      refine ⟨first.nameSet, List.forall_mem_cons.mpr ⟨rfl, fun row hrow => ?_⟩⟩
      exact NameMap.nameSet_eq_iff.mpr (names_of_firstMisfit hfit row hrow)
    · cases h

theorem settled_of_rowsOfItems {items : List Json} {i : Nat}
    (h : rowsOfItems i items = .ok rows) : ∀ row ∈ rows, row.Settled := by
  induction items generalizing i rows with
  | nil =>
    cases h
    exact nofun
  | cons item items ih =>
    cases item with
    | object members =>
      obtain ⟨row, hrow, h⟩ := bind_eq_ok.mp h
      obtain ⟨rest, hrest, h⟩ := bind_eq_ok.mp h
      obtain rfl := pure_eq_ok.mp h
      exact List.forall_mem_cons.mpr ⟨Row.settled_of_ofMembers hrow, ih hrest⟩
    | null | bool _ | number _ | string _ | array _ => cases h

/-- What is read of a dataset is ungrouped, has the same columns in all rows, and is settled. -/
theorem settled_of_ofJson {j : Json} (h : ofJson j = .ok t) :
    (∃ columns, t.HasColumns columns) ∧ t.groups = none ∧ ∀ row ∈ t.rows, row.Settled := by
  cases j with
  | array items =>
    obtain ⟨rows, hrows, h⟩ := bind_eq_ok.mp h
    obtain ⟨columns, hcolumns⟩ := exists_hasColumns h
    obtain rfl := ofRows_eq h
    exact ⟨⟨columns, hcolumns⟩, rfl, settled_of_rowsOfItems hrows⟩
  | null | bool _ | number _ | string _ | object _ => cases h

theorem ofJson_toJson_of_ofJson {j : Json} (h : ofJson j = .ok t) : ofJson t.toJson = .ok t := by
  obtain ⟨⟨columns, hcolumns⟩, hgroups, hsettled⟩ := settled_of_ofJson h
  have hrows : t.rows.map Row.reloaded = t.rows.map id :=
    List.map_congr_left fun row hrow => (hsettled row hrow).reloaded_eq
  rw [ofJson_toJson_eq hcolumns, hrows, List.map_id, ← hgroups]

/-- A table whose rows have the same columns is read again after it is written: ungrouped, with the
same columns and the same rows in order, each cell reloaded. What is read, then or from any other
dataset, stays as it is when it is written and read once more. -/
theorem json_round_trip :
    (∀ (t : Table) (columns : NameSet), t.HasColumns columns →
      ∃ read, ofJson t.toJson = .ok read ∧ t.Reloads read ∧ ofJson read.toJson = .ok read) ∧
    ∀ (j : Json) (t : Table), ofJson j = .ok t → ofJson t.toJson = .ok t := by
  refine ⟨fun t columns h => ?_, fun j t h => ofJson_toJson_of_ofJson h⟩
  have hread := ofJson_toJson_eq h
  exact ⟨_, hread, t.reloads_reloaded, ofJson_toJson_of_ofJson hread⟩

/-- Weights grouped by the first of them: a whole one, one beyond the integers, and none. -/
def weights : Table where
  rows :=
    [.ofList [("id", .text "a"), ("weight", .float 4.0)],
      .ofList [("id", .text "b"), ("weight", .float (-9223372036854775808.0))],
      .ofList [("id", .text "c"), ("weight", .float (0.0 / 0.0))]]
  groups := some [⟨.text "a", 0, 3⟩]

theorem weights_reload :
    weights.HasColumns (.ofNames ["id", "weight"]) ∧
    ∃ read, ofJson weights.toJson = .ok read ∧ ofJson read.toJson = .ok read ∧
      read.rows = [.ofList [("id", .text "a"), ("weight", .int 4)],
        .ofList [("id", .text "b"), ("weight", .float (-9223372036854775808.0))],
        .ofList [("id", .text "c"), ("weight", .missing)]] := by
  have hcolumns : weights.HasColumns (.ofNames ["id", "weight"]) := by
    intro row hrow
    revert row
    decide +kernel
  obtain ⟨read, hread, -, hagain⟩ := json_round_trip.1 weights _ hcolumns
  refine ⟨hcolumns, read, hread, hagain, ?_⟩
  have hrows : ofJson weights.toJson = .ok
      { rows := [.ofList [("id", .text "a"), ("weight", .int 4)],
          .ofList [("id", .text "b"), ("weight", .float (-9223372036854775808.0))],
          .ofList [("id", .text "c"), ("weight", .missing)]] } := rfl
  rw [Except.ok.inj (hread.symm.trans hrows)]

end Table

end TablePipeline
