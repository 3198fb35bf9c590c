import TablePipeline.Proofs.Failure
import TablePipeline.Proofs.NameMap
/-!
# The columns that an operation leaves

`HasColumns t s` says that the rows of `t` have the columns `s` and no others. Every operation on
tables takes such a table to another one, and the columns of the result do not depend on the cells.
Hence the check in `Table.ofRows` never fails on rows that come out of an operation.
-/

namespace TablePipeline

open Outcome

/-- Every row has exactly the given columns. -/
def Table.HasColumns (t : Table) (columns : NameSet) : Prop :=
  ∀ row ∈ t.rows, row.nameSet = columns

theorem Table.HasColumns.contains {t : Table} {columns : NameSet} (h : t.HasColumns columns)
    {name : String} (hname : columns.contains name = true) :
    ∀ row ∈ t.rows, row.contains name = true := by
  intro row hrow
  rw [← NameMap.contains_nameSet, h row hrow, hname]

/-- The groups are not empty and follow each other without a gap, from `start` up to `stop`. -/
def Group.Tile : Nat → List Group → Nat → Prop
  | start, [], stop => start = stop
  | start, g :: rest, stop => g.start = start ∧ start < g.stop ∧ Tile g.stop rest stop

namespace Table

variable {t u : Table} {columns : NameSet}

theorem ofRows_eq {rows : List Row} (h : ofRows rows = .ok u) : u = { rows } := by
  cases rows with
  | nil =>
    cases h
    rfl
  | cons first rest =>
    simp only [ofRows] at h
    split at h
    · cases h
      rfl
    · cases h

theorem firstMisfit_eq_none {expected : List String} {rows : List Row}
    (h : ∀ row ∈ rows, row.names = expected) (i : Nat) : firstMisfit expected i rows = none := by
  induction rows generalizing i with
  | nil => rfl
  | cons row rest ih =>
    rw [firstMisfit, if_pos (h row List.mem_cons_self)]
    exact ih (fun r hr => h r (List.mem_cons_of_mem _ hr)) (i + 1)

/-- Rows with the same columns pass the check. -/
theorem ofRows_of_hasColumns {rows : List Row} (h : ∀ row ∈ rows, row.nameSet = columns) :
    ofRows rows = .ok { rows } := by
  cases rows with
  | nil => rfl
  | cons first rest =>
    have hnames : ∀ row ∈ rest, row.names = first.names := fun row hrow =>
      NameMap.nameSet_eq_iff.mp ((h row (List.mem_cons_of_mem _ hrow)).trans
        (h first List.mem_cons_self).symm)
    simp only [ofRows, firstMisfit_eq_none hnames]

/-- What `ofRows` makes of rows with the same columns. -/
theorem hasColumns_of_ofRows {rows : List Row} (h : ∀ row ∈ rows, row.nameSet = columns)
    (hu : ofRows rows = .ok u) : u.HasColumns columns ∧ u.groups = none := by
  obtain rfl := ofRows_eq hu
  exact ⟨h, rfl⟩

/-! ### Projection, selection and computed columns -/

theorem nameSet_of_project {row r : Row} (h : project columns row = .ok r) :
    r.nameSet = columns := by
  obtain ⟨cells, hcells, h⟩ := bind_eq_ok.mp h
  obtain rfl := pure_eq_ok.mp h
  have hnames : cells.map (·.1) = columns.names.map id := by
    refine map_eq_of_mapM_ok (fun column cell hcell => ?_) hcells
    obtain ⟨v, -, hv⟩ := bind_eq_ok.mp hcell
    obtain rfl := pure_eq_ok.mp hv
    rfl
  rw [NameMap.nameSet_ofList, hnames, List.map_id, NameSet.ofNames_names]

theorem nameSet_of_projected {rows : List Row}
    (h : t.rows.mapM (project columns) = .ok rows) : ∀ row ∈ rows, row.nameSet = columns := by
  intro row hrow
  obtain ⟨r, -, hr⟩ := mem_of_mapM_ok h hrow
  exact nameSet_of_project hr

theorem hasColumns_select (h : t.select columns = .ok u) :
    u.HasColumns columns ∧ u.groups = none := by
  obtain ⟨_, -, h⟩ := bind_eq_ok.mp h
  obtain ⟨rows, hrows, h⟩ := bind_eq_ok.mp h
  exact hasColumns_of_ofRows (nameSet_of_projected hrows) h

theorem hasColumns_filter {predicate : Expr} (ht : t.HasColumns columns)
    (h : t.filter predicate = .ok u) : u.HasColumns columns ∧ u.groups = none := by
  obtain ⟨rows, hrows, h⟩ := bind_eq_ok.mp h
  exact hasColumns_of_ofRows (fun row hrow => ht row (mem_of_filterM_ok hrows hrow)) h

theorem nameSet_of_setColumns {column : String} {value : Expr} (ht : t.HasColumns columns)
    {rows : List Row} (h : t.rows.mapM (setColumn column value) = .ok rows) :
    ∀ row ∈ rows, row.nameSet = columns.insert column () := by
  intro row hrow
  obtain ⟨r, hr, hset⟩ := mem_of_mapM_ok h hrow
  obtain ⟨v, -, hv⟩ := bind_eq_ok.mp hset
  obtain rfl := pure_eq_ok.mp hv
  rw [NameMap.nameSet_insert, ht r hr]

theorem hasColumns_mutate {column : String} {value : Expr} (ht : t.HasColumns columns)
    (h : t.mutate column value = .ok u) :
    u.HasColumns (columns.insert column ()) ∧ u.groups = none := by
  rw [mutate_eq] at h
  obtain ⟨rows, hrows, h⟩ := bind_eq_ok.mp h
  exact hasColumns_of_ofRows (nameSet_of_setColumns ht hrows) h

/-! ### Grouping -/

/-- All buckets hold a row, and all their rows have the given columns. -/
def FilledWith (columns : NameSet) (bs : List Bucket) : Prop :=
  ∀ b ∈ bs, b.2 ≠ [] ∧ ∀ row ∈ b.2, row.nameSet = columns

theorem filledWith_addToBuckets {key : Value} {row : Row} (hrow : row.nameSet = columns)
    {bs : List Bucket} (h : FilledWith columns bs) :
    FilledWith columns (addToBuckets key row bs) := by
  induction bs with
  | nil =>
    intro b hb
    obtain rfl := List.mem_singleton.mp hb
    refine ⟨List.cons_ne_nil _ _, fun r hr => ?_⟩
    rw [List.mem_singleton.mp hr, hrow]
  | cons b rest ih =>
    have hrest : FilledWith columns rest := fun c hc => h c (List.mem_cons_of_mem _ hc)
    obtain ⟨hne, hcols⟩ := h b List.mem_cons_self
    rw [addToBuckets]
    split
    · intro c hc
      rcases List.mem_cons.mp hc with rfl | hc
      · refine ⟨List.append_ne_nil_of_right_ne_nil _ (List.cons_ne_nil _ _), fun r hr => ?_⟩
        rcases List.mem_append.mp hr with hr | hr
        · exact hcols r hr
        · rw [List.mem_singleton.mp hr, hrow]
      · exact hrest c hc
    · intro c hc
      rcases List.mem_cons.mp hc with rfl | hc
      · exact ⟨hne, hcols⟩
      · exact ih hrest c hc

theorem filledWith_buckets {column : String} {rows : List Row} {bs : List Bucket}
    (hrows : ∀ row ∈ rows, row.nameSet = columns) (h : buckets column rows = .ok bs) :
    FilledWith ((columns.erase column).insert indexColumn ()) bs := by
  unfold buckets at h
  -- The rows seen so far fill the accumulator, which starts empty.
  generalize hacc : ([] : List Bucket) = acc at h
  have hfilled : FilledWith ((columns.erase column).insert indexColumn ()) acc := by
    subst hacc
    exact fun b hb => nomatch hb
  clear hacc
  induction rows generalizing acc with
  | nil =>
    obtain rfl := pure_eq_ok.mp h
    exact hfilled
  | cons row rest ih =>
    rw [List.foldlM_cons] at h
    obtain ⟨acc', hacc', h⟩ := bind_eq_ok.mp h
    obtain ⟨⟨key, indexed⟩, hindexed, hadd⟩ := bind_eq_ok.mp hacc'
    obtain rfl := pure_eq_ok.mp hadd
    obtain ⟨v, -, hv⟩ := bind_eq_ok.mp hindexed
    cases pure_eq_ok.mp hv
    refine ih (fun r hr => hrows r (List.mem_cons_of_mem _ hr)) _ h ?_
    refine filledWith_addToBuckets ?_ hfilled
    rw [NameMap.nameSet_insert, NameMap.nameSet_erase, hrows row List.mem_cons_self]

/-- The groups of buckets that all hold a row cover their rows. -/
theorem tile_groupsOf {bs : List Bucket} (h : ∀ b ∈ bs, b.2 ≠ []) (start : Nat) :
    Group.Tile start (groupsOf start bs) (start + (bs.flatMap (·.2)).length) := by
  induction bs generalizing start with
  | nil => rfl
  | cons b rest ih =>
    obtain ⟨key, rows⟩ := b
    have hpos : 0 < rows.length := List.length_pos_iff.mpr (h _ List.mem_cons_self)
    have hrest := ih (fun c hc => h c (List.mem_cons_of_mem _ hc)) (start + rows.length)
    refine ⟨rfl, by change start < start + rows.length; omega, ?_⟩
    rw [List.flatMap_cons, List.length_append, ← Nat.add_assoc]
    exact hrest

theorem hasColumns_group {column : String} (ht : t.HasColumns columns)
    (h : t.group column = .ok u) :
    u.HasColumns ((columns.erase column).insert indexColumn ()) ∧
      ∃ groups, u.groups = some groups ∧ Group.Tile 0 groups u.rows.length := by
  obtain ⟨_, -, h⟩ := bind_eq_ok.mp h
  obtain ⟨bs, hbs, h⟩ := bind_eq_ok.mp h
  obtain rfl := pure_eq_ok.mp h
  have hfilled := filledWith_buckets ht hbs
  refine ⟨fun row hrow => ?_, _, rfl, ?_⟩
  · obtain ⟨b, hb, hrow⟩ := List.mem_flatMap.mp hrow
    exact (hfilled b hb).2 row hrow
  · have htile := tile_groupsOf (fun b hb => (hfilled b hb).1) 0
    rwa [Nat.zero_add] at htile

/-! ### Summaries -/

theorem length_summaryNames {used : List String} {aggregates : List Expr} {names : List String}
    (h : summaryNames used aggregates = .ok names) : names.length = aggregates.length := by
  induction aggregates generalizing used names with
  | nil =>
    cases h
    rfl
  | cons expr rest ih =>
    cases expr with
    | aggregate f column =>
      obtain ⟨names', hnames', h⟩ := bind_eq_ok.mp h
      obtain rfl := pure_eq_ok.mp h
      rw [List.length_cons, List.length_cons, ih hnames']
    | literal v | column name | compare op left right | arithmetic op left right => cases h

theorem nameSet_of_summaryRow {aggregates : List Expr} {names : List String} {rows : List Row}
    {row : Row} (hlength : names.length = aggregates.length)
    (h : summaryRow aggregates names rows = .ok row) : row.nameSet = .ofNames names := by
  obtain ⟨cells, hcells, h⟩ := bind_eq_ok.mp h
  obtain rfl := pure_eq_ok.mp h
  have hnames : cells.map (·.1) = (names.zip aggregates).map (·.1) := by
    refine map_eq_of_mapM_ok (fun entry cell hcell => ?_) hcells
    obtain ⟨v, -, hv⟩ := bind_eq_ok.mp hcell
    obtain rfl := pure_eq_ok.mp hv
    rfl
  rw [NameMap.nameSet_ofList, hnames, List.map_fst_zip (Nat.le_of_eq hlength)]

/-- The columns of a summary: the names, and the index if the table is grouped. -/
def summaryColumns (grouped : Bool) (names : List String) : NameSet :=
  if grouped then (NameSet.ofNames names).insert indexColumn () else .ofNames names

theorem nameSet_of_summaryRows {aggregates : List Expr} {names : List String} {rows : List Row}
    (hlength : names.length = aggregates.length)
    (h : summaryRows t aggregates names = .ok rows) :
    ∀ row ∈ rows, row.nameSet = summaryColumns t.groups.isSome names := by
  intro row hrow
  unfold summaryRows at h
  split at h
  · next groups hgroups =>
    obtain ⟨g, -, hg⟩ := mem_of_mapM_ok h hrow
    obtain ⟨r, hr, hinsert⟩ := bind_eq_ok.mp hg
    obtain rfl := pure_eq_ok.mp hinsert
    rw [NameMap.nameSet_insert, nameSet_of_summaryRow hlength hr, hgroups]
    rfl
  · next hgroups =>
    obtain ⟨r, hr, hsingle⟩ := bind_eq_ok.mp h
    obtain rfl := pure_eq_ok.mp hsingle
    rw [List.mem_singleton.mp hrow, nameSet_of_summaryRow hlength hr, hgroups]
    rfl

theorem hasColumns_summarize {aggregates : List Expr} (h : t.summarize aggregates = .ok u) :
    ∃ names, summaryNames [indexColumn] aggregates = .ok names ∧
      u.HasColumns (summaryColumns t.groups.isSome names) ∧ u.groups = none := by
  rw [summarize_eq] at h
  obtain ⟨names, hnames, h⟩ := bind_eq_ok.mp h
  obtain ⟨rows, hrows, h⟩ := bind_eq_ok.mp h
  have hcols := nameSet_of_summaryRows (length_summaryNames hnames) hrows
  exact ⟨names, hnames, hasColumns_of_ofRows hcols h⟩

/-! ### Joins -/

/-- The columns of a join: the key, and the other columns of both tables with their prefixes. -/
def joinColumns (left : NameSet) (leftColumn : String) (right : NameSet) (rightColumn : String) :
    NameSet :=
  .ofNames (joinColumn :: (left.erase leftColumn).names.map leftName
    ++ (right.erase rightColumn).names.map rightName)

theorem map_fst_renamed (rename : String → String) (key : String) (row : Row) :
    (renamed rename key row).map (·.1) = (row.erase key).names.map rename := by
  rw [renamed, NameMap.names, List.map_map, List.map_map]
  rfl

theorem nameSet_joinedRow (key : Value) (leftColumn : String) (l : Row) (rightColumn : String)
    (r : Row) : (joinedRow key leftColumn l rightColumn r).nameSet
      = joinColumns l.nameSet leftColumn r.nameSet rightColumn := by
  rw [joinedRow, NameMap.nameSet_ofList, List.map_append, List.map_cons, map_fst_renamed,
    map_fst_renamed, joinColumns, ← NameMap.nameSet_erase, ← NameMap.nameSet_erase,
    NameMap.names_nameSet, NameMap.names_nameSet]

theorem hasColumns_join {leftColumn rightColumn : String} {left right : Table}
    {leftColumns rightColumns : NameSet} (hl : left.HasColumns leftColumns)
    (hr : right.HasColumns rightColumns)
    (h : left.join leftColumn right rightColumn = .ok u) :
    u.HasColumns (joinColumns leftColumns leftColumn rightColumns rightColumn) ∧
      u.groups = none := by
  obtain ⟨parts, hparts, h⟩ := bind_eq_ok.mp h
  obtain rfl := pure_eq_ok.mp h
  refine ⟨fun row hrow => ?_, rfl⟩
  obtain ⟨part, hpart, hrow⟩ := List.mem_flatten.mp hrow
  obtain ⟨l, hlmem, hjoin⟩ := mem_of_mapM_ok hparts hpart
  obtain ⟨key, -, hjoin⟩ := bind_eq_ok.mp hjoin
  obtain ⟨matching, hmatching, hjoin⟩ := bind_eq_ok.mp hjoin
  obtain rfl := pure_eq_ok.mp hjoin
  obtain ⟨r, hrmem, rfl⟩ := List.mem_map.mp hrow
  rw [nameSet_joinedRow, hl l hlmem, hr r (mem_of_filterM_ok hmatching hrmem)]

end Table

end TablePipeline
