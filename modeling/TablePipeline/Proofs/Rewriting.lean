import TablePipeline.Proofs.Grouping
/-!
# Operations that may change places

An expression depends on the columns that it mentions and on nothing else (`Expr.onRow_congr`).
Hence a filter may come before an operation that works row by row and leaves alone what the filter
looks at (`Table.RowWise.filterMoves`), which computed columns and projections are, and two computed
columns that do not look at each other may come in either order (`Table.mutate_comm`). Errors do not
change either, as long as the operation that comes first now did not fail.
-/

namespace TablePipeline

open Outcome

/-! ### What an expression looks at -/

/-- The rows have the same cells, or none, in each of some columns. -/
def Row.AgreeOn (columns : List String) (r s : Row) : Prop :=
  ∀ name ∈ columns, r.get? name = s.get? name

namespace Row.AgreeOn

variable {first second : List String} {r s : Row}

theorem left (h : AgreeOn (first ++ second) r s) : AgreeOn first r s :=
  fun name hname => h name (List.mem_append_left _ hname)

theorem right (h : AgreeOn (first ++ second) r s) : AgreeOn second r s :=
  fun name hname => h name (List.mem_append_right _ hname)

end Row.AgreeOn

theorem Row.agreeOn_insert {columns : List String} {column : String} (h : column ∉ columns)
    (row : Row) (v : Value) : AgreeOn columns (row.insert column v) row := by
  intro name hname
  have hne : name ≠ column := fun heq => h (heq ▸ hname)
  rw [NameMap.get?_insert, if_neg hne]

namespace Expr

/-- The columns that an expression mentions. -/
def columns : Expr → List String
  | .literal _ => []
  | .column name => [name]
  | .compare _ left right | .arithmetic _ left right => left.columns ++ right.columns
  | .aggregate _ name => [name]

/-- Rows that agree on the columns of an expression give it the same value or the same error. -/
theorem onRow_congr {e : Expr} {r s : Row} (h : r.AgreeOn e.columns s) :
    e.onRow r = e.onRow s := by
  induction e with
  | literal v => rfl
  | column name =>
    show r.cell name = s.cell name
    rw [Row.cell, Row.cell, h name List.mem_cons_self]
  | compare op left right ihl ihr => rw [onRow, onRow, ihl h.left, ihr h.right]
  | arithmetic op left right ihl ihr => rw [onRow, onRow, ihl h.left, ihr h.right]
  | aggregate f column => rfl

end Expr

namespace Table

variable {t u v : Table} {columns : NameSet} {c d : String} {e₁ e₂ p : Expr}

/-! ### Filters before operations on rows -/

def satisfies (predicate : Expr) (row : Row) : Except Error Bool := do
  return (← predicate.onRow row).isTruthy

theorem filter_eq (predicate : Expr) (t : Table) :
    t.filter predicate = t.rows.filterM (satisfies predicate) >>= ofRows := rfl

theorem satisfies_congr {predicate : Expr} {r s : Row} (h : r.AgreeOn predicate.columns s) :
    satisfies predicate r = satisfies predicate s := by
  rw [satisfies, satisfies, Expr.onRow_congr h]

/-- On the table and on every part of it, the operation makes rows out of rows one by one. -/
def RowWise (op : Table → Except Error Table) (f : Row → Except Error Row) (t : Table) : Prop :=
  ∀ s : Table, (∀ row ∈ s.rows, row ∈ t.rows) → op s = s.rows.mapM f >>= ofRows

/-- The filter of the result `u` may be moved in front of the operation. Then nothing else can
fail. -/
def FilterMoves (predicate : Expr) (op : Table → Except Error Table) (t u : Table) : Prop :=
  u.filter predicate = t.filter predicate >>= op ∧
    ∀ s, t.filter predicate = .ok s → ∃ w, op s = .ok w

/-- An operation that works on a table works on each part of it. -/
theorem RowWise.exists_ok {op : Table → Except Error Table} {f : Row → Except Error Row}
    {made : NameSet} (hop : RowWise op f t)
    (hmade : ∀ row ∈ t.rows, ∀ r, f row = .ok r → r.nameSet = made) (hu : op t = .ok u)
    {s : Table} (hs : ∀ row ∈ s.rows, row ∈ t.rows) : ∃ w, op s = .ok w := by
  rw [hop t fun _ hrow => hrow] at hu
  obtain ⟨mapped, hmapped, -⟩ := bind_eq_ok.mp hu
  have hok : ∀ row ∈ s.rows, ∃ r, f row = .ok r := fun row hrow =>
    exists_mapM_ok_iff.mp ⟨mapped, hmapped⟩ row (hs row hrow)
  obtain ⟨rows, hrows⟩ := exists_mapM_ok_iff.mpr hok
  have hcolumns : ∀ r ∈ rows, r.nameSet = made := by
    intro r hr
    obtain ⟨row, hrow, hr⟩ := mem_of_mapM_ok hrows hr
    exact hmade row (hs row hrow) r hr
  exact ⟨{ rows }, by rw [hop s hs, hrows, ok_bind, ofRows_of_hasColumns hcolumns]⟩

/-- A filter may be moved in front of an operation that leaves alone what the filter looks at. -/
theorem RowWise.filterMoves {op : Table → Except Error Table} {f : Row → Except Error Row}
    {made : NameSet} (hop : RowWise op f t) (ht : t.HasColumns columns)
    (hmade : ∀ row ∈ t.rows, ∀ r, f row = .ok r → r.nameSet = made)
    (hagree : ∀ row ∈ t.rows, ∀ r, f row = .ok r → r.AgreeOn p.columns row) (hu : op t = .ok u) :
    FilterMoves p op t u := by
  have hexists {s : Table} (hs : ∀ row ∈ s.rows, row ∈ t.rows) := hop.exists_ok hmade hu hs
  rw [hop t fun _ hrow => hrow] at hu
  obtain ⟨mapped, hmapped, hu⟩ := bind_eq_ok.mp hu
  obtain rfl := ofRows_eq hu
  have hrows : mapped.filterM (satisfies p)
      = t.rows.filterM (satisfies p) >>= fun kept => kept.mapM f :=
    filterM_of_mapM hmapped fun row hrow r hr => satisfies_congr (hagree row hrow r hr)
  rw [FilterMoves, filter_eq, filter_eq, hrows]
  cases hkept : t.rows.filterM (satisfies p) with
  | error e => exact ⟨rfl, nofun⟩
  | ok kept =>
    have hpart : ∀ row ∈ kept, row ∈ t.rows := fun row hrow => mem_of_filterM_ok hkept hrow
    -- The rows that the filter keeps have the columns of the table, and pass the check as they did.
    have hsame : ofRows kept = .ok { rows := kept } :=
      ofRows_of_hasColumns fun row hrow => ht row (hpart row hrow)
    have hstep := hop { rows := kept } hpart
    simp only [ok_bind, hsame]
    refine ⟨hstep.symm, fun s hs => ?_⟩
    obtain rfl := Except.ok.inj hs
    exact hexists hpart

/-! ### Computed columns -/

theorem setColumn_eq_ok {row r : Row} (h : setColumn c e₁ row = .ok r) :
    ∃ v, e₁.onRow row = .ok v ∧ r = row.insert c v := by
  obtain ⟨v, hv, h⟩ := bind_eq_ok.mp h
  exact ⟨v, hv, (pure_eq_ok.mp h).symm⟩

/-- A filter that does not look at a computed column may come before it. -/
theorem filterMoves_mutate (ht : t.HasColumns columns) (hc : c ∉ p.columns)
    (hu : t.mutate c e₁ = .ok u) : FilterMoves p (mutate c e₁) t u := by
  have hop : RowWise (mutate c e₁) (setColumn c e₁) t := fun s _ => mutate_eq c e₁ s
  have hmade : ∀ row ∈ t.rows, ∀ r, setColumn c e₁ row = .ok r →
      r.nameSet = columns.insert c () := by
    intro row hrow r hr
    obtain ⟨w, -, rfl⟩ := setColumn_eq_ok hr
    rw [NameMap.nameSet_insert, ht row hrow]
  refine hop.filterMoves ht hmade (fun row _ r hr => ?_) hu
  obtain ⟨w, -, rfl⟩ := setColumn_eq_ok hr
  exact Row.agreeOn_insert hc row w

/-- On one row, two computed columns that do not look at each other may change places. -/
theorem setColumn_comm {row r : Row} (hne : c ≠ d) (hc : c ∉ e₂.columns) (hd : d ∉ e₁.columns)
    (h : setColumn c e₁ row >>= setColumn d e₂ = .ok r) :
    setColumn d e₂ row >>= setColumn c e₁ = .ok r := by
  obtain ⟨s, hs, h⟩ := bind_eq_ok.mp h
  obtain ⟨v₁, hv₁, rfl⟩ := setColumn_eq_ok hs
  obtain ⟨v₂, hv₂, rfl⟩ := setColumn_eq_ok h
  rw [Expr.onRow_congr (Row.agreeOn_insert hc row v₁)] at hv₂
  have hswap : (row.insert d v₂).insert c v₁ = (row.insert c v₁).insert d v₂ := by
    refine NameMap.ext_get? fun name => ?_
    simp only [NameMap.get?_insert]
    by_cases hname : name = c
    · rw [if_pos hname, if_neg fun h => hne (hname.symm.trans h), if_pos hname]
    · rw [if_neg hname, if_neg hname]
  rw [setColumn, hv₂, ok_bind, pure_bind, setColumn,
    Expr.onRow_congr (Row.agreeOn_insert hd row v₂), hv₁, ok_bind, hswap]
  rfl

theorem mutate_comm (ht : t.HasColumns columns) (hne : c ≠ d) (hc : c ∉ e₂.columns)
    (hd : d ∉ e₁.columns) (hu : t.mutate c e₁ = .ok u) (hv : u.mutate d e₂ = .ok v) :
    ∃ w, t.mutate d e₂ = .ok w ∧ w.mutate c e₁ = .ok v := by
  rw [mutate_eq] at hu hv
  obtain ⟨first, hfirst, hu⟩ := bind_eq_ok.mp hu
  obtain rfl := ofRows_eq hu
  obtain ⟨both, hboth, hv⟩ := bind_eq_ok.mp hv
  rw [mapM_mapM hfirst, mapM_eq_ok_iff] at hboth
  -- Each row comes to the same row in the other order.
  have hother : t.rows.mapM (fun row => setColumn d e₂ row >>= setColumn c e₁) = .ok both :=
    mapM_eq_ok_iff.mpr (hboth.imp fun row r h => setColumn_comm hne hc hd h)
  have hok : ∀ row ∈ t.rows, ∃ r, setColumn d e₂ row = .ok r := by
    intro row hrow
    obtain ⟨r, hr⟩ := exists_mapM_ok_iff.mp ⟨both, hother⟩ row hrow
    obtain ⟨s, hs, -⟩ := bind_eq_ok.mp hr
    exact ⟨s, hs⟩
  obtain ⟨second, hsecond⟩ := exists_mapM_ok_iff.mpr hok
  have hsame := ofRows_of_hasColumns (nameSet_of_setColumns ht hsecond)
  refine ⟨{ rows := second }, ?_, ?_⟩
  · rw [mutate_eq, hsecond, ok_bind, hsame]
  · rw [mutate_eq, mapM_mapM hsecond, hother, ok_bind, hv]

end Table

/-! ### Projections -/

namespace Row

variable {columns : NameSet} {row : Row}

/-- The row has all of the columns. -/
def HasAll (columns : NameSet) (row : Row) : Prop :=
  ∀ name, columns.contains name = true → row.contains name = true

/-- The part of a row in some columns that it has. -/
def part (columns : NameSet) (row : Row) : Row :=
  .ofList (columns.names.map fun name => (name, row.keyIn name))

theorem get?_part (h : row.HasAll columns) (name : String) :
    (row.part columns).get? name = if columns.contains name then row.get? name else none := by
  have hnodup : ((columns.names.map fun name => (name, row.keyIn name)).map (·.1)).Nodup := by
    simpa [List.map_map, Function.comp_def] using columns.nodup_names
  refine Option.ext fun v => ?_
  rw [part, NameMap.get?_ofList_eq_some_iff hnodup, List.mem_map]
  constructor
  · intro hmem
    obtain ⟨name', hname, heq⟩ := hmem
    cases heq
    have hcontains := NameMap.mem_names.mp hname
    rw [if_pos hcontains, get?_of_contains (h name hcontains)]
  · intro hget
    by_cases hname : columns.contains name = true
    · rw [if_pos hname, get?_of_contains (h name hname)] at hget
      exact ⟨name, NameMap.mem_names.mpr hname, by rw [Option.some.inj hget]⟩
    · rw [if_neg hname] at hget
      cases hget

/-- A part of a part is a part of the row. -/
theorem part_part {kept fewer : NameSet} (h : row.HasAll kept)
    (hfewer : ∀ name, fewer.contains name = true → kept.contains name = true) :
    (row.part kept).HasAll fewer ∧ (row.part kept).part fewer = row.part fewer := by
  have hrow : row.HasAll fewer := fun name hname => h name (hfewer name hname)
  have hpart : (row.part kept).HasAll fewer := by
    intro name hname
    rw [NameMap.contains, get?_part h, if_pos (hfewer name hname)]
    exact hrow name hname
  refine ⟨hpart, NameMap.ext_get? fun name => ?_⟩
  rw [get?_part hpart, get?_part hrow]
  by_cases hname : fewer.contains name = true
  · rw [if_pos hname, if_pos hname, get?_part h, if_pos (hfewer name hname)]
  · rw [if_neg hname, if_neg hname]

end Row

namespace Table

variable {t u : Table} {columns kept fewer : NameSet} {p : Expr}

theorem project_eq {row : Row} (h : row.HasAll columns) :
    project columns row = .ok (row.part columns) := by
  have hcells : columns.names.mapM (fun column => do return (column, ← row.cell column))
      = (.ok (columns.names.map fun name => (name, row.keyIn name)) : Except Error _) := by
    refine mapM_eq_ok_map fun name hname => ?_
    rw [Row.cell_of_contains (h name (NameMap.mem_names.mp hname))]
    rfl
  rw [project, hcells]
  rfl

theorem hasAll_of_project {row r : Row} (h : project columns row = .ok r) :
    row.HasAll columns := by
  intro name hname
  obtain ⟨cells, hcells, -⟩ := bind_eq_ok.mp h
  obtain ⟨cell, hcell⟩ :=
    exists_mapM_ok_iff.mp ⟨cells, hcells⟩ name (NameMap.mem_names.mpr hname)
  obtain ⟨v, hv, -⟩ := bind_eq_ok.mp hcell
  exact Row.contains_of_cell hv

/-- A projection succeeds on rows that have the columns. -/
theorem select_eq_ok (h : ∀ row ∈ t.rows, row.HasAll columns) :
    t.select columns = .ok { rows := t.rows.map (Row.part columns) } := by
  have hrequired : columns.names.forM t.requireColumn = .ok () :=
    forM_eq_ok fun name hname =>
      requireColumn_eq fun row hrow => h row hrow name (NameMap.mem_names.mp hname)
  have hrows : t.rows.mapM (project columns) = .ok (t.rows.map (Row.part columns)) :=
    mapM_eq_ok_map fun row hrow => project_eq (h row hrow)
  rw [select, hrequired, ok_bind, hrows, ok_bind,
    ofRows_of_hasColumns (nameSet_of_projected hrows)]

theorem hasAll_of_select (h : t.select columns = .ok u) :
    ∀ row ∈ t.rows, row.HasAll columns := by
  obtain ⟨_, -, h⟩ := bind_eq_ok.mp h
  obtain ⟨rows, hrows, -⟩ := bind_eq_ok.mp h
  intro row hrow
  obtain ⟨r, hr⟩ := exists_mapM_ok_iff.mp ⟨rows, hrows⟩ row hrow
  exact hasAll_of_project hr

/-- Where a projection succeeds, it projects the rows one by one, also those of a part of the
table. -/
theorem rowWise_select (h : ∀ row ∈ t.rows, row.HasAll columns) :
    RowWise (select columns) (project columns) t := by
  intro s hs
  have hall : ∀ row ∈ s.rows, row.HasAll columns := fun row hrow => h row (hs row hrow)
  have hrows : s.rows.mapM (project columns) = .ok (s.rows.map (Row.part columns)) :=
    mapM_eq_ok_map fun row hrow => project_eq (hall row hrow)
  rw [select_eq_ok hall, hrows, ok_bind, ofRows_of_hasColumns (nameSet_of_projected hrows)]

/-- A filter that looks only at columns that a projection keeps may come before it. -/
theorem filterMoves_select (ht : t.HasColumns columns)
    (hp : ∀ name ∈ p.columns, kept.contains name = true) (hu : t.select kept = .ok u) :
    FilterMoves p (select kept) t u := by
  have hall := hasAll_of_select hu
  refine (rowWise_select hall).filterMoves ht (fun row _ r hr => nameSet_of_project hr) ?_ hu
  intro row hrow r hr name hname
  rw [project_eq (hall row hrow)] at hr
  rw [← Except.ok.inj hr, Row.get?_part (hall row hrow), if_pos (hp name hname)]

/-- A projection on fewer columns after another one is the projection on these. -/
theorem select_select (hfewer : ∀ name, fewer.contains name = true → kept.contains name = true)
    (hu : t.select kept = .ok u) : ∃ w, u.select fewer = .ok w ∧ t.select fewer = .ok w := by
  have hall := hasAll_of_select hu
  have hfew : ∀ row ∈ t.rows, row.HasAll fewer := fun row hrow name hname =>
    hall row hrow name (hfewer name hname)
  have htwice : ∀ row ∈ t.rows, (row.part kept).HasAll fewer ∧
      (row.part kept).part fewer = row.part fewer := fun row hrow =>
    Row.part_part (hall row hrow) hfewer
  rw [select_eq_ok hall] at hu
  obtain rfl := Except.ok.inj hu
  have hparts : (t.rows.map (Row.part kept)).map (Row.part fewer)
      = t.rows.map (Row.part fewer) := by
    rw [List.map_map]
    exact List.map_congr_left fun row hrow => (htwice row hrow).2
  refine ⟨_, select_eq_ok (List.forall_mem_map.mpr fun row hrow => (htwice row hrow).1), ?_⟩
  rw [hparts, select_eq_ok hfew]

/-! ### Rewrites of a table -/

/-- An expression depends only on the columns that it mentions. On a table whose rows have the same
columns, a filter may therefore come before a computed column that it does not look at, and before a
projection that keeps what it looks at; of two projections, one on fewer columns than the other, the
first one may be left out; and two computed columns that do not look at each other may change
places. -/
theorem rewrites_sound (ht : t.HasColumns columns) :
    (∀ (e : Expr) (r s : Row), r.AgreeOn e.columns s → e.onRow r = e.onRow s) ∧
    (∀ c e p u, c ∉ p.columns → t.mutate c e = .ok u → FilterMoves p (mutate c e) t u) ∧
    (∀ kept p u, (∀ name ∈ p.columns, kept.contains name = true) → t.select kept = .ok u →
      FilterMoves p (select kept) t u) ∧
    (∀ kept fewer u, (∀ name, fewer.contains name = true → kept.contains name = true) →
      t.select kept = .ok u → ∃ w, u.select fewer = .ok w ∧ t.select fewer = .ok w) ∧
    ∀ c d e₁ e₂ u v, c ≠ d → c ∉ e₂.columns → d ∉ e₁.columns → t.mutate c e₁ = .ok u →
      u.mutate d e₂ = .ok v → ∃ w, t.mutate d e₂ = .ok w ∧ w.mutate c e₁ = .ok v := by
  refine ⟨fun e r s h => Expr.onRow_congr h, ?_, ?_, ?_, ?_⟩
  · exact fun c e p u hc hu => filterMoves_mutate ht hc hu
  · exact fun kept p u hp hu => filterMoves_select ht hp hu
  · exact fun kept fewer u hfewer hu => select_select hfewer hu
  · exact fun c d e₁ e₂ u v hne hc hd hu hv => mutate_comm ht hne hc hd hu hv

/-- Lengths with their units, and notes that are no numbers everywhere. -/
def readings : Table where
  rows :=
    [.ofList [("length", .int 3), ("unit", .text "cm"), ("note", .int 1)],
      .ofList [("length", .int 5), ("unit", .text "mm"), ("note", .text "x")]]

/-- Twice the length. -/
def twice : Expr := .arithmetic .mul (.column "length") (.literal (.int 2))

/-- The length is more than four. -/
def isLong : Expr := .compare .gt (.column "length") (.literal (.int 4))

/-- The note is more than four, which it cannot be where it is a text. -/
def isHighNote : Expr := .compare .gt (.column "note") (.literal (.int 4))

theorem readings_rewrites :
    readings.HasColumns (.ofNames ["length", "unit", "note"]) ∧
    twice.onRow (.ofList [("length", .int 3)]) = .ok (.int 6) ∧
    (∀ row : Row, row.get? "length" = some (.int 3) → twice.onRow row = .ok (.int 6)) ∧
    (∃ u, readings.mutate "twice" twice = .ok u ∧
      FilterMoves isLong (mutate "twice" twice) readings u ∧
      FilterMoves isHighNote (mutate "twice" twice) readings u) ∧
    (∃ u, readings.select (.ofNames ["length", "unit"]) = .ok u ∧
      FilterMoves isLong (select (.ofNames ["length", "unit"])) readings u ∧
      ∃ w, u.select (.ofNames ["unit"]) = .ok w ∧ readings.select (.ofNames ["unit"]) = .ok w) ∧
    ∃ u v w, readings.mutate "twice" twice = .ok u ∧ u.mutate "long" isLong = .ok v ∧
      readings.mutate "long" isLong = .ok w ∧ w.mutate "twice" twice = .ok v := by
  have ht : readings.HasColumns (.ofNames ["length", "unit", "note"]) := by
    unfold HasColumns
    decide
  obtain ⟨hcongr, hmutate, hselect, hfewer, hcomm⟩ := rewrites_sound ht
  obtain ⟨u, hu⟩ : ∃ u, readings.mutate "twice" twice = .ok u := ⟨_, rfl⟩
  obtain ⟨v, hv⟩ : ∃ v, u.mutate "long" isLong = .ok v := by
    obtain rfl := Except.ok.inj hu
    exact ⟨_, rfl⟩
  obtain ⟨s, hs⟩ : ∃ s, readings.select (.ofNames ["length", "unit"]) = .ok s := ⟨_, rfl⟩
  have hthree : twice.onRow (.ofList [("length", .int 3)]) = .ok (.int 6) := rfl
  refine ⟨ht, hthree, fun row hrow => ?_, ⟨u, hu, ?_, ?_⟩, ⟨s, hs, ?_, ?_⟩, u, v, ?_⟩
  · rw [hcongr twice row (.ofList [("length", .int 3)]) ?_, hthree]
    intro name hname
    obtain rfl := List.mem_singleton.mp hname
    exact hrow
  · exact hmutate _ _ _ _ (by decide) hu
  · exact hmutate _ _ _ _ (by decide) hu
  · exact hselect _ _ _ (by decide) hs
  · refine hfewer _ _ _ (fun name hname => ?_) hs
    rw [NameSet.contains_ofNames] at hname ⊢
    exact List.mem_cons_of_mem _ hname
  · obtain ⟨w, hw, hwv⟩ := hcomm _ _ _ _ _ _ (by decide) (by decide) (by decide) hu hv
    exact ⟨w, hu, hv, hw, hwv⟩

end Table

end TablePipeline
