import TablePipeline.Proofs.Outcome
import TablePipeline.Run
/-!
# Which errors an operation can fail with

`Error.OfCells` are the errors that depend on the cells of tables, `Error.OfData` adds those of
names that are not known. Two more kinds depend on the program and the tables instead: an aggregate
or a bin count in a place where none may stand, and rows with different columns. Each lemma here
says that an operation fails with errors that satisfy `P`, where `P` is any property of the errors
of cells and of those of the other kinds that the operation may run into.
-/

namespace TablePipeline

open Outcome (Raises)

/-- The words for the types of values. -/
def Value.typeNames : List String := ["missing", "boolean", "number", "string"]

theorem Value.typeName_mem (v : Value) : v.typeName ∈ Value.typeNames := by
  cases v <;> simp [typeName, typeNames]

/-- The error depends on the cells of tables: a column is not there, a divisor is zero, or two
values have types that do not go together. -/
def Error.OfCells : Error → Prop
  | .unknownColumn _ | .divisionByZero => True
  | .typeMismatch _ left right => left ∈ Value.typeNames ∧ right ∈ Value.typeNames
  | .unknownDataset _ | .unregisteredName _ | .compile _ | .schemaMismatch .. |
    .invalidDataset _ => False

/-- The error depends on the data: a name is not known, a divisor is zero, or two values have types
that do not go together. -/
def Error.OfData : Error → Prop
  | .unknownDataset _ | .unknownColumn _ | .unregisteredName _ | .divisionByZero => True
  | .typeMismatch _ left right => left ∈ Value.typeNames ∧ right ∈ Value.typeNames
  | .compile _ | .schemaMismatch .. | .invalidDataset _ => False

theorem Error.OfCells.ofData {e : Error} (h : e.OfCells) : e.OfData := by
  cases e <;> first | exact h | exact h.elim

/-- The error of rows that do not all have the columns of the first one. -/
def Error.Ragged : Error → Prop
  | .schemaMismatch .. => True
  | _ => False

theorem Error.OfData.not_ragged {e : Error} (h : e.OfData) : ¬ e.Ragged := by
  cases e <;> first | exact id | exact h.elim

/-- The error of an aggregate that stands where a row is at hand. -/
def Error.aggregateOnRow (f : AggregateFn) : Error := .typeMismatch f.code "row" "column"

def Error.noBins : Error := .typeMismatch "histogram" "bin count" "zero"

/-- No part of the expression is an aggregate. -/
def Expr.RowWise : Expr → Prop
  | .literal _ | .column _ => True
  | .compare _ left right | .arithmetic _ left right => left.RowWise ∧ right.RowWise
  | .aggregate .. => False

def Expr.IsAggregate : Expr → Prop
  | .aggregate .. => True
  | _ => False

section Values

variable {P : Error → Prop}

theorem Value.order?_raises (cells : ∀ e, e.OfCells → P e) (context : String) (a b : Value) :
    Raises P (a.order? context b) := by
  have mismatch : Raises P (Except.error (ε := Error) (α := Option Ordering)
      (.typeMismatch context a.typeName b.typeName)) :=
    .error (cells _ ⟨a.typeName_mem, b.typeName_mem⟩)
  cases a <;> cases b <;> first | exact mismatch | exact .ok _

theorem CompareOp.apply_raises (cells : ∀ e, e.OfCells → P e) (op : CompareOp) (a b : Value) :
    Raises P (op.apply a b) := by
  unfold CompareOp.apply
  split
  · cases op <;> exact .ok _
  · refine .bind (Value.order?_raises cells _ a b) fun ord _ => ?_
    cases ord <;> exact .ok _

theorem ArithmeticOp.applyFloats_raises (cells : ∀ e, e.OfCells → P e) (op : ArithmeticOp)
    (a b : Value) : Raises P (op.applyFloats a b) := by
  unfold ArithmeticOp.applyFloats
  split
  · split
    · exact .error (cells _ trivial)
    · exact .ok _
  · exact .error (cells _ ⟨a.typeName_mem, b.typeName_mem⟩)

theorem ArithmeticOp.applyInts_raises (cells : ∀ e, e.OfCells → P e) (op : ArithmeticOp)
    (a b : Int64) : Raises P (op.applyInts a b) := by
  unfold ArithmeticOp.applyInts
  split
  · exact .error (cells _ trivial)
  split
  · exact applyFloats_raises cells op _ _
  split
  · exact .ok _
  · exact applyFloats_raises cells op _ _

theorem ArithmeticOp.apply_raises (cells : ∀ e, e.OfCells → P e) (op : ArithmeticOp)
    (a b : Value) : Raises P (op.apply a b) := by
  unfold ArithmeticOp.apply
  split
  · exact .ok _
  split
  · exact applyInts_raises cells op _ _
  · exact applyFloats_raises cells op _ _

theorem Row.cell_raises (cells : ∀ e, e.OfCells → P e) (row : Row) (column : String) :
    Raises P (row.cell column) := by
  unfold Row.cell
  split
  · exact .ok _
  · exact .error (cells _ trivial)

theorem cellsOf_raises (cells : ∀ e, e.OfCells → P e) (rows : List Row) (column : String) :
    Raises P (cellsOf rows column) :=
  .mapM fun row _ => row.cell_raises cells column

theorem AggregateFn.sumOf_raises (cells : ∀ e, e.OfCells → P e) (context : String)
    (values : List Value) : Raises P (sumOf context values) := by
  refine .bind (.foldlM (fun t v _ => ?_) _) fun t _ => ?_
  · cases v with
    | int n => exact .ok _
    | float x => exact .ok _
    | missing | bool b | text s =>
      exact .error (cells _ ⟨by simp [Value.typeNames], Value.typeName_mem _⟩)
  · cases t.exact <;> exact .ok _

theorem AggregateFn.extremeOf_raises (cells : ∀ e, e.OfCells → P e) (context : String)
    (keep : Ordering) (values : List Value) : Raises P (extremeOf context keep values) := by
  cases values with
  | nil => exact .ok _
  | cons first rest =>
    refine .foldlM (fun best v _ => ?_) _
    refine .bind (Value.order?_raises cells _ v best) fun ord _ => ?_
    split <;> exact .ok _

theorem AggregateFn.apply_raises (cells : ∀ e, e.OfCells → P e) (f : AggregateFn)
    (values : List Value) : Raises P (f.apply values) := by
  cases f with
  | count => exact .ok _
  | sum => exact sumOf_raises cells _ _
  | min | max => exact extremeOf_raises cells _ _ _
  | mean =>
    change Raises P (meanOf _ _)
    unfold meanOf
    split
    · exact .ok _
    · exact .bind (sumOf_raises cells _ _) fun _ _ => .ok _

theorem Expr.onRow_raises (cells : ∀ e, e.OfCells → P e) {expr : Expr} (row : Row)
    (h : expr.RowWise ∨ ∀ f, P (.aggregateOnRow f)) : Raises P (expr.onRow row) := by
  induction expr with
  | literal v => exact .ok v
  | column name => exact row.cell_raises cells name
  | compare op left right ihl ihr =>
    refine .bind (ihl (h.imp_left And.left)) fun a _ => ?_
    refine .bind (ihr (h.imp_left And.right)) fun b _ => ?_
    exact .bind (op.apply_raises cells a b) fun _ _ => .ok _
  | arithmetic op left right ihl ihr =>
    refine .bind (ihl (h.imp_left And.left)) fun a _ => ?_
    exact .bind (ihr (h.imp_left And.right)) fun b _ => op.apply_raises cells a b
  | aggregate f column => exact .error (h.elim False.elim fun hf => hf f)

theorem Expr.onRows_raises (cells : ∀ e, e.OfCells → P e) {expr : Expr} (rows : List Row)
    (h : expr.IsAggregate ∨ P notAggregate) : Raises P (expr.onRows rows) := by
  cases expr with
  | aggregate f column => exact .bind (cellsOf_raises cells _ _) fun _ _ => f.apply_raises cells _
  | literal v | column name | compare op left right | arithmetic op left right =>
    exact .error (h.elim False.elim id)

end Values

namespace Table

variable {P : Error → Prop} {t : Table}

theorem ofRows_raises (ragged : ∀ i expected found, P (.schemaMismatch i expected found))
    (rows : List Row) : Raises P (ofRows rows) := by
  cases rows with
  | nil => exact .ok _
  | cons first rest =>
    simp only [ofRows]
    split
    · exact .ok _
    · exact .error (ragged _ _ _)

theorem requireColumn_raises (cells : ∀ e, e.OfCells → P e) (t : Table) (column : String) :
    Raises P (t.requireColumn column) := by
  unfold requireColumn
  split
  · exact .ok _
  · split
    · exact .ok _
    · exact .error (cells _ trivial)

theorem project_raises (cells : ∀ e, e.OfCells → P e) (columns : NameSet) (row : Row) :
    Raises P (project columns row) :=
  .bind (.mapM fun column _ => .bind (row.cell_raises cells column) fun _ _ => .ok _)
    fun _ _ => .ok _

theorem select_raises (cells : ∀ e, e.OfCells → P e) {columns : NameSet}
    (hrows : ∀ rows, t.rows.mapM (project columns) = .ok rows → Raises P (ofRows rows)) :
    Raises P (t.select columns) := by
  refine .bind (.forM fun column _ => t.requireColumn_raises cells column) fun _ _ => ?_
  exact .bind (.mapM fun row _ => project_raises cells columns row) hrows

theorem filter_raises (cells : ∀ e, e.OfCells → P e) {predicate : Expr}
    (hp : predicate.RowWise ∨ ∀ f, P (.aggregateOnRow f))
    (hrows : ∀ rows, (∀ row ∈ rows, row ∈ t.rows) → Raises P (ofRows rows)) :
    Raises P (t.filter predicate) := by
  refine .bind (.filterM fun row _ => ?_) fun rows h => ?_
  · exact .bind (Expr.onRow_raises cells row hp) fun _ _ => .ok _
  · exact hrows rows fun row hrow => Outcome.mem_of_filterM_ok h hrow

def setColumn (column : String) (value : Expr) (row : Row) : Except Error Row := do
  return row.insert column (← value.onRow row)

theorem mutate_eq (column : String) (value : Expr) (t : Table) :
    t.mutate column value = t.rows.mapM (setColumn column value) >>= ofRows := rfl

theorem mutate_raises (cells : ∀ e, e.OfCells → P e) {column : String} {value : Expr}
    (hv : value.RowWise ∨ ∀ f, P (.aggregateOnRow f))
    (hrows : ∀ rows, t.rows.mapM (setColumn column value) = .ok rows → Raises P (ofRows rows)) :
    Raises P (t.mutate column value) := by
  rw [mutate_eq]
  refine .bind (.mapM fun row _ => ?_) hrows
  exact .bind (Expr.onRow_raises cells row hv) fun _ _ => .ok _

theorem group_raises (cells : ∀ e, e.OfCells → P e) (column : String) :
    Raises P (t.group column) := by
  refine .bind (t.requireColumn_raises cells column) fun _ _ => ?_
  refine .bind (.foldlM (fun acc row _ => ?_) _) fun _ _ => .ok _
  exact .bind (.bind (row.cell_raises cells column) fun _ _ => .ok _) fun _ _ => .ok _

theorem summaryNames_raises {aggregates : List Expr}
    (ha : (∀ expr ∈ aggregates, expr.IsAggregate) ∨ P Expr.notAggregate) (used : List String) :
    Raises P (summaryNames used aggregates) := by
  induction aggregates generalizing used with
  | nil => exact .ok _
  | cons expr rest ih =>
    cases expr with
    | aggregate f column =>
      refine .bind (ih (ha.imp_left fun h e he => h e (List.mem_cons_of_mem _ he)) _) ?_
      exact fun _ _ => .ok _
    | literal v | column name | compare op left right | arithmetic op left right =>
      exact .error (ha.elim (fun h => (h _ List.mem_cons_self).elim) id)

theorem summaryRow_raises (cells : ∀ e, e.OfCells → P e) {aggregates : List Expr}
    (ha : (∀ expr ∈ aggregates, expr.IsAggregate) ∨ P Expr.notAggregate) (names : List String)
    (rows : List Row) : Raises P (summaryRow aggregates names rows) := by
  refine .bind (.mapM fun (name, expr) hmem => ?_) fun _ _ => .ok _
  have hexpr := ha.imp_left fun h => h expr (List.of_mem_zip hmem).2
  exact .bind (Expr.onRows_raises cells rows hexpr) fun _ _ => .ok _

/-- The row that `summarize` makes of a group. -/
def groupSummary (t : Table) (aggregates : List Expr) (names : List String) (g : Group) :
    Except Error Row := do
  return (← summaryRow aggregates names (t.groupRows g)).insert indexColumn g.key

def summaryRows (t : Table) (aggregates : List Expr) (names : List String) :
    Except Error (List Row) :=
  match t.groups with
  | some groups => groups.mapM (groupSummary t aggregates names)
  | none => do return [← summaryRow aggregates names t.rows]

theorem summarize_eq (aggregates : List Expr) (t : Table) :
    t.summarize aggregates
      = summaryNames [indexColumn] aggregates >>= fun names =>
        summaryRows t aggregates names >>= ofRows := by
  unfold summarize summaryRows
  cases t.groups with
  | none =>
    refine congrArg _ (funext fun names => ?_)
    cases summaryRow aggregates names t.rows with
    | error e => rfl
    | ok row => rfl
  | some groups => rfl

theorem summarize_raises (cells : ∀ e, e.OfCells → P e) {aggregates : List Expr}
    (ha : (∀ expr ∈ aggregates, expr.IsAggregate) ∨ P Expr.notAggregate)
    (hrows : ∀ names rows, summaryNames [indexColumn] aggregates = .ok names →
      summaryRows t aggregates names = .ok rows → Raises P (ofRows rows)) :
    Raises P (t.summarize aggregates) := by
  rw [summarize_eq]
  refine .bind (summaryNames_raises ha _) fun names hnames => ?_
  refine .bind ?_ fun rows h => hrows names rows hnames h
  unfold summaryRows
  split
  · exact .mapM fun g _ => .bind (summaryRow_raises cells ha names _) fun _ _ => .ok _
  · exact .bind (summaryRow_raises cells ha names _) fun _ _ => .ok _

theorem joinRow_raises (cells : ∀ e, e.OfCells → P e) (leftColumn : String) (right : List Row)
    (rightColumn : String) (l : Row) : Raises P (joinRow leftColumn right rightColumn l) := by
  refine .bind (l.cell_raises cells leftColumn) fun key _ => ?_
  refine .bind (.filterM fun r _ => ?_) fun _ _ => .ok _
  exact .bind (r.cell_raises cells rightColumn) fun _ _ => .ok _

theorem join_raises (cells : ∀ e, e.OfCells → P e) (left : Table) (leftColumn : String)
    (right : Table) (rightColumn : String) :
    Raises P (left.join leftColumn right rightColumn) :=
  .bind (.mapM fun l _ => joinRow_raises cells leftColumn right.rows rightColumn l)
    fun _ _ => .ok _

end Table

section Effects

variable {P : Error → Prop}

theorem Catalog.load_raises (catalog : Catalog) {name : String} (unknown : P (.unknownDataset name)) :
    Raises P (catalog.load name) := by
  unfold Catalog.load
  split
  · exact .ok _
  · exact .error unknown

theorem Environment.lookup_raises (env : Environment) {name : String}
    (unknown : P (.unregisteredName name)) : Raises P (env.lookup name) := by
  unfold Environment.lookup
  split
  · exact .ok _
  · exact .error unknown

theorem Extent.ofValues_raises (cells : ∀ e, e.OfCells → P e) (values : List Value) :
    Raises P (Extent.ofValues values) := by
  refine .foldlM (fun extent v _ => ?_) _
  unfold Extent.addValue
  split
  · exact .ok _
  split
  · exact .error (cells _ ⟨by simp [Value.typeNames], v.typeName_mem⟩)
  · exact .ok _

/-- The bins that a plot asks for, if it is a histogram. -/
def Plot.bins? : Plot → Option Nat
  | .histogram _ bins => some bins
  | .bar .. | .scatter .. => none

theorem Plot.spec_raises (cells : ∀ e, e.OfCells → P e) (t : Table) {plot : Plot}
    (hbins : plot.bins? ≠ some 0 ∨ P .noBins) : Raises P (plot.spec t) := by
  cases plot with
  | histogram column bins =>
    change Raises P (histogramSpec t column bins)
    unfold histogramSpec
    by_cases hzero : bins = 0
    · rw [if_pos hzero]
      exact .error (hbins.elim (fun h => absurd (congrArg some hzero) h) id)
    · rw [if_neg hzero]
      refine .bind (t.requireColumn_raises cells column) fun _ _ => ?_
      refine .bind (cellsOf_raises cells t.rows column) fun values _ => ?_
      exact .bind (Extent.ofValues_raises cells values) fun _ _ => .ok _
  | bar x y =>
    refine .bind (t.requireColumn_raises cells x) fun _ _ => ?_
    exact .bind (t.requireColumn_raises cells y) fun _ _ => .ok _
  | scatter x y color =>
    refine .bind (t.requireColumn_raises cells x) fun _ _ => ?_
    refine .bind (t.requireColumn_raises cells y) fun _ _ => ?_
    refine .bind ?_ fun _ _ => .ok _
    cases color with
    | none => exact .ok _
    | some c => exact t.requireColumn_raises cells c

/-- Aggregates and bin counts stand in the stage only where they may. -/
def Stage.InPlace : Stage → Prop
  | .filter predicate => predicate.RowWise
  | .mutate _ value => value.RowWise
  | .summarize aggregates => ∀ expr ∈ aggregates, expr.IsAggregate
  | .visualize plot => plot.bins? ≠ some 0
  | .load _ | .select _ | .group _ | .notify _ | .join .. => True

/-- The error says that an aggregate or a bin count stands where none may stand. -/
def Error.Misplaced (e : Error) : Prop :=
  (∃ f, e = .aggregateOnRow f) ∨ e = Expr.notAggregate ∨ e = .noBins

theorem Stage.run_raises_of (cells : ∀ e, e.OfCells → P e) (ragged : ∀ e, e.Ragged → P e)
    (dataset : ∀ name, P (.unknownDataset name)) {stage : Stage}
    (unregistered : ∀ leftName leftColumn rightName rightColumn,
      stage = .join leftName leftColumn rightName rightColumn →
      P (.unregisteredName leftName) ∧ P (.unregisteredName rightName))
    (misplaced : stage.InPlace ∨ ∀ e, e.Misplaced → P e) (env : Environment) (input : Table) :
    Raises P (stage.run env input) := by
  have rows (rows : List Row) : Raises P (Table.ofRows rows) :=
    Table.ofRows_raises (fun _ _ _ => ragged _ trivial) rows
  have onRow : (∀ e, e.Misplaced → P e) → ∀ f, P (.aggregateOnRow f) :=
    fun h f => h _ (.inl ⟨f, rfl⟩)
  cases stage with
  | load source => exact .bind (env.catalog.load_raises (dataset source)) fun _ _ => .ok _
  | select columns => exact .bind (Table.select_raises cells fun _ _ => rows _) fun _ _ => .ok _
  | filter predicate =>
    refine .bind (Table.filter_raises cells ?_ fun _ _ => rows _) fun _ _ => .ok _
    exact misplaced.imp_right onRow
  | mutate column value =>
    refine .bind (Table.mutate_raises cells ?_ fun _ _ => rows _) fun _ _ => .ok _
    exact misplaced.imp_right onRow
  | group column => exact .bind (input.group_raises cells column) fun _ _ => .ok _
  | summarize aggregates =>
    refine .bind (Table.summarize_raises cells ?_ fun _ _ _ _ => rows _) fun _ _ => .ok _
    exact misplaced.imp_right fun h => h _ (.inr (.inl rfl))
  | notify name => exact .ok _
  | join leftName leftColumn rightName rightColumn =>
    obtain ⟨hleft, hright⟩ := unregistered _ _ _ _ rfl
    refine .bind (env.lookup_raises hleft) fun left _ => ?_
    refine .bind (env.lookup_raises hright) fun right _ => ?_
    exact .bind (left.join_raises cells leftColumn right rightColumn) fun _ _ => .ok _
  | visualize plot =>
    refine .bind (Plot.spec_raises cells input ?_) fun _ _ => .ok _
    exact misplaced.imp_right fun h => h _ (.inr (.inr rfl))

end Effects

end TablePipeline
