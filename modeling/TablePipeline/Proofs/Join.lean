import TablePipeline.Proofs.Grouping
import Mathlib.Data.List.ProdSigma
/-!
# Joins

A join is the product of two tables, filtered by equal keys: it has one row for each pair of rows
whose keys are equal, and from this row both rows of the pair can be taken back
(`Table.join_matches`). The names of the columns do not matter, since the prefixes keep those of the
left table, those of the right table and the key apart.

A key that a row does not have is an error, if the loop over the pairs comes to that row
(`Table.join_unknownColumn_iff`). It comes to no row of the right table if the left one is empty.
-/

namespace TablePipeline

open Outcome

/-! ### Equal keys -/

/-- What two values compare to does not depend on the place that an error would name. -/
theorem Value.order?_eq_ok_iff {a b : Value} {ord : Option Ordering} (context context' : String) :
    a.order? context b = .ok ord ↔ a.order? context' b = .ok ord := by
  cases a <;> cases b <;> simp [order?, toFloat?]

/-- Keys match if and only if the comparison of an expression finds them equal. -/
theorem Value.sameKey_iff_apply {a b : Value} :
    a.sameKey b = true ↔ CompareOp.eq.apply a b = .ok true := by
  rw [sameKey_iff, order?_eq_ok_iff "key" "comparison", CompareOp.apply]
  cases ha : a.isMissing with
  | true => simp
  | false =>
    cases hb : b.isMissing with
    | true => simp
    | false =>
      cases a.order? "comparison" b with
      | error e => simp [bind, Except.bind]
      | ok ord => cases ord <;> simp [bind, Except.bind, pure, Except.pure, CompareOp.holds]

/-- The first key is not missing, and equal to the second one as expressions compare. -/
def KeysEqual (a b : Value) : Prop := a ≠ .missing ∧ CompareOp.eq.apply a b = .ok true

instance (a b : Value) : Decidable (KeysEqual a b) := inferInstanceAs (Decidable (_ ∧ _))

theorem Table.keysMatch_iff {a b : Value} : keysMatch a b = true ↔ KeysEqual a b := by
  rw [keysMatch, Bool.and_eq_true, Value.sameKey_iff_apply, KeysEqual]
  refine and_congr_left fun _ => ?_
  cases a <;> simp [Value.isMissing]

/-! ### Names of columns -/

/-- What follows a prefix in a name, if the name has the prefix. -/
def afterPrefix? (start name : String) : Option String :=
  (start.toList.isPrefixOf? name.toList).map String.ofList

theorem afterPrefix?_eq_some_iff {start name rest : String} :
    afterPrefix? start name = some rest ↔ name = start ++ rest := by
  rw [afterPrefix?, Option.map_eq_some_iff]
  constructor
  · intro h
    obtain ⟨chars, hchars, rfl⟩ := h
    rw [List.isPrefixOf?_eq_some_iff_append_eq] at hchars
    apply String.toList_injective
    rw [String.toList_append, String.toList_ofList, hchars]
  · intro h
    refine ⟨rest.toList, ?_, String.ofList_toList⟩
    rw [List.isPrefixOf?_eq_some_iff_append_eq, h, String.toList_append]

/-- The column of the left table that a column of a join comes from. -/
def leftColumn? (name : String) : Option String := afterPrefix? "left_" name

/-- The column of the right table that a column of a join comes from. -/
def rightColumn? (name : String) : Option String := afterPrefix? "right_" name

open Table (leftName rightName joinColumn)

theorem leftColumn?_eq_some_iff {name column : String} :
    leftColumn? name = some column ↔ name = leftName column := afterPrefix?_eq_some_iff

theorem rightColumn?_eq_some_iff {name column : String} :
    rightColumn? name = some column ↔ name = rightName column := afterPrefix?_eq_some_iff

@[simp] theorem leftColumn?_leftName (column : String) :
    leftColumn? (leftName column) = some column := leftColumn?_eq_some_iff.mpr rfl

@[simp] theorem rightColumn?_rightName (column : String) :
    rightColumn? (rightName column) = some column := rightColumn?_eq_some_iff.mpr rfl

@[simp] theorem leftColumn?_joinColumn : leftColumn? joinColumn = none := rfl

@[simp] theorem rightColumn?_joinColumn : rightColumn? joinColumn = none := rfl

@[simp] theorem leftColumn?_rightName (column : String) :
    leftColumn? (rightName column) = none := by
  rw [leftColumn?, rightName, afterPrefix?, String.toList_append]
  rfl

@[simp] theorem rightColumn?_leftName (column : String) :
    rightColumn? (leftName column) = none := by
  rw [rightColumn?, leftName, afterPrefix?, String.toList_append]
  rfl

namespace Table

theorem leftName_injective {x y : String} (h : leftName x = leftName y) : x = y := by
  have h := congrArg leftColumn? h
  simpa using h

theorem rightName_injective {x y : String} (h : rightName x = rightName y) : x = y := by
  have h := congrArg rightColumn? h
  simpa using h

theorem leftName_ne_joinColumn (x : String) : leftName x ≠ joinColumn := by
  intro h
  have h := congrArg leftColumn? h
  simp at h

theorem rightName_ne_joinColumn (y : String) : rightName y ≠ joinColumn := by
  intro h
  have h := congrArg rightColumn? h
  simp at h

theorem leftName_ne_rightName (x y : String) : leftName x ≠ rightName y := by
  intro h
  have h := congrArg leftColumn? h
  simp at h

end Table

/-! ### Joined rows -/

namespace Row

/-- The columns of a row that come from the left table of a join, under their names there. -/
def leftPart (row : Row) : Row := row.mapNames leftColumn?

/-- The columns of a row that come from the right table of a join, under their names there. -/
def rightPart (row : Row) : Row := row.mapNames rightColumn?

theorem get?_leftPart (row : Row) (column : String) :
    row.leftPart.get? column = row.get? (leftName column) := by
  refine NameMap.get?_mapNames (fun a b c ha hb => ?_) (leftColumn?_leftName column)
  rw [leftColumn?_eq_some_iff.mp ha, leftColumn?_eq_some_iff.mp hb]

theorem get?_rightPart (row : Row) (column : String) :
    row.rightPart.get? column = row.get? (rightName column) := by
  refine NameMap.get?_mapNames (fun a b c ha hb => ?_) (rightColumn?_rightName column)
  rw [rightColumn?_eq_some_iff.mp ha, rightColumn?_eq_some_iff.mp hb]

/-- The row holds the key of the left row and the other columns of both rows with their prefixes,
and nothing else, so that these can be taken out of it again. -/
structure JoinedFrom (leftColumn : String) (l : Row) (rightColumn : String) (r row : Row) :
    Prop where
  key : row.get? joinColumn = l.get? leftColumn
  left : ∀ x, x ≠ leftColumn → row.get? (leftName x) = l.get? x
  right : ∀ y, y ≠ rightColumn → row.get? (rightName y) = r.get? y
  size : row.names.length = 1 + (l.names.length - 1) + (r.names.length - 1)
  leftPart : row.leftPart = l.erase leftColumn
  rightPart : row.rightPart = r.erase rightColumn

end Row

namespace Table

section JoinedRow

variable {key v : Value} {leftColumn rightColumn name : String} {l r row : Row}

theorem mem_renamed {rename : String → String} {column : String} :
    (name, v) ∈ renamed rename column row ↔
      ∃ original, rename original = name ∧ (row.erase column).get? original = some v := by
  rw [renamed, List.mem_map]
  constructor
  · intro h
    obtain ⟨e, he, heq⟩ := h
    cases heq
    exact ⟨e.1, rfl, NameMap.get?_eq_some_iff.mpr he⟩
  · intro h
    obtain ⟨original, rfl, hget⟩ := h
    exact ⟨(original, v), NameMap.get?_eq_some_iff.mp hget, rfl⟩

/-- The bindings of a joined row. -/
def joinedCells (key : Value) (leftColumn : String) (l : Row) (rightColumn : String) (r : Row) :
    List (String × Value) :=
  (joinColumn, key) :: renamed leftName leftColumn l ++ renamed rightName rightColumn r

theorem map_fst_joinedCells (key : Value) (leftColumn : String) (l : Row) (rightColumn : String)
    (r : Row) : (joinedCells key leftColumn l rightColumn r).map (·.1)
      = joinColumn :: (l.erase leftColumn).names.map leftName
        ++ (r.erase rightColumn).names.map rightName := by
  rw [joinedCells, List.map_append, List.map_cons, map_fst_renamed, map_fst_renamed]

/-- The prefixes keep the columns of the two rows and the key apart, whatever their names are. -/
theorem nodup_joinedCells (key : Value) (leftColumn : String) (l : Row) (rightColumn : String)
    (r : Row) : ((joinedCells key leftColumn l rightColumn r).map (·.1)).Nodup := by
  have hleft : ((l.erase leftColumn).names.map leftName).Nodup :=
    (l.erase leftColumn).nodup_names.map fun _ _ => leftName_injective
  have hright : ((r.erase rightColumn).names.map rightName).Nodup :=
    (r.erase rightColumn).nodup_names.map fun _ _ => rightName_injective
  have hkey : joinColumn ∉ (l.erase leftColumn).names.map leftName := by
    intro h
    obtain ⟨x, -, heq⟩ := List.mem_map.mp h
    exact leftName_ne_joinColumn x heq
  rw [map_fst_joinedCells]
  refine List.nodup_append.mpr ⟨List.nodup_cons.mpr ⟨hkey, hleft⟩, hright, ?_⟩
  intro a ha b hb
  obtain ⟨y, -, rfl⟩ := List.mem_map.mp hb
  rcases List.mem_cons.mp ha with rfl | ha
  · exact (rightName_ne_joinColumn y).symm
  · obtain ⟨x, -, rfl⟩ := List.mem_map.mp ha
    exact leftName_ne_rightName x y

theorem get?_joinedRow_eq_some_iff :
    (joinedRow key leftColumn l rightColumn r).get? name = some v ↔
      (name = joinColumn ∧ v = key) ∨
      (∃ x, leftName x = name ∧ (l.erase leftColumn).get? x = some v) ∨
      ∃ y, rightName y = name ∧ (r.erase rightColumn).get? y = some v := by
  have hget : (joinedRow key leftColumn l rightColumn r).get? name = some v ↔
      (name, v) ∈ joinedCells key leftColumn l rightColumn r :=
    NameMap.get?_ofList_eq_some_iff (nodup_joinedCells key leftColumn l rightColumn r)
  rw [hget, joinedCells, List.cons_append, List.mem_cons, List.mem_append, mem_renamed,
    mem_renamed, Prod.mk.injEq]

theorem get?_joinedRow_joinColumn :
    (joinedRow key leftColumn l rightColumn r).get? joinColumn = some key :=
  get?_joinedRow_eq_some_iff.mpr (.inl ⟨rfl, rfl⟩)

theorem get?_joinedRow_leftName (x : String) :
    (joinedRow key leftColumn l rightColumn r).get? (leftName x)
      = (l.erase leftColumn).get? x := by
  refine Option.ext fun v => ?_
  rw [get?_joinedRow_eq_some_iff]
  constructor
  · intro h
    rcases h with ⟨heq, -⟩ | ⟨x', heq, hget⟩ | ⟨y, heq, -⟩
    · exact absurd heq (leftName_ne_joinColumn x)
    · exact leftName_injective heq ▸ hget
    · exact absurd heq.symm (leftName_ne_rightName x y)
  · exact fun hget => .inr (.inl ⟨x, rfl, hget⟩)

theorem get?_joinedRow_rightName (y : String) :
    (joinedRow key leftColumn l rightColumn r).get? (rightName y)
      = (r.erase rightColumn).get? y := by
  refine Option.ext fun v => ?_
  rw [get?_joinedRow_eq_some_iff]
  constructor
  · intro h
    rcases h with ⟨heq, -⟩ | ⟨x, heq, -⟩ | ⟨y', heq, hget⟩
    · exact absurd heq (rightName_ne_joinColumn y)
    · exact absurd heq (leftName_ne_rightName x y)
    · exact rightName_injective heq ▸ hget
  · exact fun hget => .inr (.inr ⟨y, rfl, hget⟩)

theorem length_names_joinedRow (hl : l.contains leftColumn = true)
    (hr : r.contains rightColumn = true) :
    (joinedRow key leftColumn l rightColumn r).names.length
      = 1 + (l.names.length - 1) + (r.names.length - 1) := by
  have hperm : (joinedRow key leftColumn l rightColumn r).names.Perm
      ((joinedCells key leftColumn l rightColumn r).map (·.1)) :=
    NameMap.names_ofList_perm (nodup_joinedCells key leftColumn l rightColumn r)
  rw [hperm.length_eq, map_fst_joinedCells, List.length_append, List.length_cons,
    List.length_map, List.length_map, NameMap.length_names_erase hl,
    NameMap.length_names_erase hr]
  omega

theorem joinedFrom_joinedRow (hl : l.contains leftColumn = true)
    (hr : r.contains rightColumn = true) :
    Row.JoinedFrom leftColumn l rightColumn r
      (joinedRow (l.keyIn leftColumn) leftColumn l rightColumn r) := by
  constructor
  case key => rw [get?_joinedRow_joinColumn, Row.get?_of_contains hl]
  case left =>
    intro x hx
    rw [get?_joinedRow_leftName, NameMap.get?_erase, if_neg hx]
  case right =>
    intro y hy
    rw [get?_joinedRow_rightName, NameMap.get?_erase, if_neg hy]
  case size => exact length_names_joinedRow hl hr
  case leftPart =>
    refine NameMap.ext_get? fun x => ?_
    rw [Row.get?_leftPart, get?_joinedRow_leftName]
  case rightPart =>
    refine NameMap.ext_get? fun y => ?_
    rw [Row.get?_rightPart, get?_joinedRow_rightName]

end JoinedRow

variable {left right u : Table} {leftColumn rightColumn column : String} {l : Row}
  {rows : List Row}

/-! ### Joins that succeed -/

/-- The pairs of a left and a right row with equal keys, in the order of the left table and then of
the right one. -/
def matchingPairs (left : Table) (leftColumn : String) (right : Table) (rightColumn : String) :
    List (Row × Row) :=
  (left.rows ×ˢ right.rows).filter fun p =>
    KeysEqual (p.1.keyIn leftColumn) (p.2.keyIn rightColumn)

theorem joinRow_eq (hl : l.contains leftColumn = true)
    (hrows : ∀ r ∈ rows, r.contains rightColumn = true) :
    joinRow leftColumn rows rightColumn l
      = .ok ((rows.filter fun r => KeysEqual (l.keyIn leftColumn) (r.keyIn rightColumn)).map
          (joinedRow (l.keyIn leftColumn) leftColumn l rightColumn)) := by
  have hmatching :
      rows.filterM (fun r => return keysMatch (l.keyIn leftColumn) (← r.cell rightColumn))
        = .ok (rows.filter fun r => KeysEqual (l.keyIn leftColumn) (r.keyIn rightColumn)) := by
    refine filterM_eq_ok_filter fun r hr => ?_
    rw [Row.cell_of_contains (hrows r hr), ok_bind]
    apply congrArg Except.ok
    rw [Bool.eq_iff_iff, keysMatch_iff, decide_eq_true_iff]
  rw [joinRow, Row.cell_of_contains hl, ok_bind, hmatching]
  rfl

/-- The joined rows are those of the matching pairs. -/
theorem join_eq (hl : ∀ l ∈ left.rows, l.contains leftColumn = true)
    (hr : ∀ r ∈ right.rows, r.contains rightColumn = true) :
    left.join leftColumn right rightColumn
      = .ok { rows := (left.matchingPairs leftColumn right rightColumn).map fun p =>
          joinedRow (p.1.keyIn leftColumn) leftColumn p.1 rightColumn p.2 } := by
  -- The product goes through the right rows for one left row after the other, as the loop does.
  have hpairs : left.rows ×ˢ right.rows
      = left.rows.flatMap fun l => right.rows.map (Prod.mk l) := rfl
  rw [join, mapM_eq_ok_map fun l hlmem => joinRow_eq (hl l hlmem) hr, ok_bind, matchingPairs,
    hpairs, List.filter_flatMap, List.map_flatMap, ← List.flatMap_def]
  simp only [List.filter_map, List.map_map, Function.comp_def]
  rfl

/-- Where all rows have their keys, a join succeeds. Its rows are made from the pairs of rows with
equal keys, one from each, in their order, and hold both rows of their pair. If each table has the
same columns in all rows, so has the join. -/
theorem join_matches (hl : ∀ l ∈ left.rows, l.contains leftColumn = true)
    (hr : ∀ r ∈ right.rows, r.contains rightColumn = true) :
    ∃ u, left.join leftColumn right rightColumn = .ok u ∧
      List.Forall₂ (fun p row => Row.JoinedFrom leftColumn p.1 rightColumn p.2 row)
        (left.matchingPairs leftColumn right rightColumn) u.rows ∧
      ((∃ columns, left.HasColumns columns) → (∃ columns, right.HasColumns columns) →
        ∃ columns, u.HasColumns columns) := by
  have hjoin := join_eq hl hr
  refine ⟨_, hjoin, ?_, fun hleft hright => ?_⟩
  · rw [List.forall₂_map_right_iff, List.forall₂_same]
    intro p hp
    obtain ⟨hpl, hpr⟩ := List.mem_product.mp (List.mem_filter.mp hp).1
    exact joinedFrom_joinedRow (hl p.1 hpl) (hr p.2 hpr)
  · obtain ⟨leftColumns, hleft⟩ := hleft
    obtain ⟨rightColumns, hright⟩ := hright
    exact ⟨_, (hasColumns_join hleft hright hjoin).1⟩

/-- Columns that have the names of a join already, and keys of several kinds. -/
def seats : Table where
  rows :=
    [.ofList [("_join_", .int 1), ("left_x", .text "a"), ("right_x", .missing)],
      .ofList [("_join_", .float 2.0), ("left_x", .text "b"), ("right_x", .bool true)],
      .ofList [("_join_", .missing), ("left_x", .text "c"), ("right_x", .bool false)]]

/-- The same for the right side of a join. -/
def guests : Table where
  rows :=
    [.ofList [("x", .int 2), ("left_x", .text "d")],
      .ofList [("x", .missing), ("left_x", .text "e")],
      .ofList [("x", .float 1.0), ("left_x", .text "f")]]

theorem seats_join_guests :
    (∀ l ∈ seats.rows, l.contains "_join_" = true) ∧
    (∀ r ∈ guests.rows, r.contains "x" = true) ∧
    (seats.matchingPairs "_join_" guests "x").length = 2 ∧
    ∃ u, seats.join "_join_" guests "x" = .ok u ∧
      List.Forall₂ (fun p row => Row.JoinedFrom "_join_" p.1 "x" p.2 row)
        (seats.matchingPairs "_join_" guests "x") u.rows ∧
      ∃ columns, u.HasColumns columns := by
  have hl : ∀ l ∈ seats.rows, l.contains "_join_" = true := by decide
  have hr : ∀ r ∈ guests.rows, r.contains "x" = true := by decide
  have hseats : seats.HasColumns (.ofNames ["_join_", "left_x", "right_x"]) := by
    unfold HasColumns
    decide
  have hguests : guests.HasColumns (.ofNames ["x", "left_x"]) := by
    unfold HasColumns
    decide
  obtain ⟨u, hjoin, hrows, hcolumns⟩ := join_matches hl hr
  exact ⟨hl, hr, by decide, u, hjoin, hrows, hcolumns ⟨_, hseats⟩ ⟨_, hguests⟩⟩

/-! ### Joins that fail -/

/-- Some row of the table does not have the column. -/
def Lacks (t : Table) (column : String) : Prop := ∃ row ∈ t.rows, row.contains column = false

/-- A row of the left table fails to join at the first key that is not there. -/
theorem joinRow_misses (l : Row) (rows : List Row) :
    Raises (fun e => (e = .unknownColumn leftColumn ∧ l.contains leftColumn = false) ∨
        e = .unknownColumn rightColumn ∧ ∃ r ∈ rows, r.contains rightColumn = false)
      (joinRow leftColumn rows rightColumn l) := by
  refine .bind (fun e he => ?_) fun key _ => .bind (.filterM fun r hr => ?_) fun _ _ => .ok _
  · exact .inl (l.cell_misses leftColumn e he)
  · refine .bind (fun e he => ?_) fun _ _ => .ok _
    obtain ⟨heq, hlacks⟩ := r.cell_misses rightColumn e he
    exact .inr ⟨heq, r, hr, hlacks⟩

theorem join_misses (left right : Table) (leftColumn rightColumn : String) :
    Raises (fun e => (e = .unknownColumn leftColumn ∧ left.Lacks leftColumn) ∨
        e = .unknownColumn rightColumn ∧ left.rows ≠ [] ∧ right.Lacks rightColumn)
      (left.join leftColumn right rightColumn) := by
  refine .bind (.mapM fun l hl e he => ?_) fun _ _ => .ok _
  refine (joinRow_misses l right.rows e he).imp ?_ ?_
  · exact fun h => ⟨h.1, l, hl, h.2⟩
  · exact fun h => ⟨h.1, List.ne_nil_of_mem hl, h.2⟩

/-- A row of the left table that joins has its key, and so have all rows of the right one. -/
theorem contains_of_joinRow {joined : List Row}
    (h : joinRow leftColumn rows rightColumn l = .ok joined) :
    l.contains leftColumn = true ∧ ∀ r ∈ rows, r.contains rightColumn = true := by
  obtain ⟨key, hkey, h⟩ := bind_eq_ok.mp h
  obtain ⟨matching, hmatching, -⟩ := bind_eq_ok.mp h
  refine ⟨Row.contains_of_cell hkey, fun r hr => ?_⟩
  obtain ⟨keep, hkeep⟩ := exists_of_filterM_ok hmatching hr
  obtain ⟨v, hv, -⟩ := bind_eq_ok.mp hkeep
  exact Row.contains_of_cell hv

/-- The rows that a join has come to have their keys. -/
theorem not_lacks_of_join (h : left.join leftColumn right rightColumn = .ok u) :
    ¬ left.Lacks leftColumn ∧ (left.rows ≠ [] → ¬ right.Lacks rightColumn) := by
  obtain ⟨parts, hparts, -⟩ := bind_eq_ok.mp h
  have hcontains : ∀ l ∈ left.rows,
      l.contains leftColumn = true ∧ ∀ r ∈ right.rows, r.contains rightColumn = true := by
    intro l hl
    obtain ⟨part, hpart⟩ := exists_mapM_ok_iff.mp ⟨parts, hparts⟩ l hl
    exact contains_of_joinRow hpart
  constructor
  · intro hlacks
    obtain ⟨l, hl, hno⟩ := hlacks
    cases hno.symm.trans (hcontains l hl).1
  · intro hne hlacks
    obtain ⟨l, hl⟩ := List.exists_mem_of_ne_nil _ hne
    obtain ⟨r, hr, hno⟩ := hlacks
    cases hno.symm.trans ((hcontains l hl).2 r hr)

/-- A join misses a column if and only if a row of the left table does not have its key, or the left
table has rows and a row of the right one does not have its key. A join fails in no other way, and
names the column that is not there. -/
theorem join_unknownColumn_iff (left right : Table) (leftColumn rightColumn : String) :
    ((∃ column, left.join leftColumn right rightColumn = .error (.unknownColumn column)) ↔
      left.Lacks leftColumn ∨ left.rows ≠ [] ∧ right.Lacks rightColumn) ∧
    ∀ e, left.join leftColumn right rightColumn = .error e →
      (e = .unknownColumn leftColumn ∧ left.Lacks leftColumn) ∨
      e = .unknownColumn rightColumn ∧ right.Lacks rightColumn := by
  have hraises := join_misses left right leftColumn rightColumn
  refine ⟨⟨fun h => ?_, fun h => ?_⟩, fun e he => ?_⟩
  · obtain ⟨column, hjoin⟩ := h
    exact (hraises _ hjoin).imp And.right And.right
  · cases hjoin : left.join leftColumn right rightColumn with
    | error e =>
      rcases hraises e hjoin with h | h
      · exact ⟨leftColumn, by rw [h.1]⟩
      · exact ⟨rightColumn, by rw [h.1]⟩
    | ok u =>
      obtain ⟨hleft, hright⟩ := not_lacks_of_join hjoin
      rcases h with h | ⟨hne, h⟩
      · exact absurd h hleft
      · exact absurd h (hright hne)
  · exact (hraises e he).imp_right fun h => ⟨h.1, h.2.2⟩

/-- A row without a key. -/
def unkeyed : Table where
  rows := [.ofList [("name", .text "x")]]

/-- An empty left table hides that the right one does not have its key, though the empty table on
the right does not hide it of the left one. -/
theorem empty_join_unkeyed :
    ¬ ((∃ column, empty.join "k" unkeyed "k" = .error (.unknownColumn column)) ↔
      empty.Lacks "k" ∨ unkeyed.Lacks "k") ∧
    unkeyed.join "k" empty "k" = .error (.unknownColumn "k") := by
  refine ⟨fun h => ?_, rfl⟩
  have hlacks : unkeyed.Lacks "k" := ⟨_, List.mem_cons_self, by decide⟩
  obtain ⟨column, hjoin⟩ := h.mpr (.inr hlacks)
  have hempty : empty.join "k" unkeyed "k" = .ok empty := rfl
  cases hempty.symm.trans hjoin

end Table

end TablePipeline
