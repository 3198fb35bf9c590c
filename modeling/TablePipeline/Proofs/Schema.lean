import TablePipeline.Proofs.Columns
import TablePipeline.Proofs.Composition
/-!
# The columns of every table, known before the run

`Inferred.step` works out the columns that a stage leaves from those that it finds, without a look
at the cells. A run keeps to it: every table that a stage makes has the inferred columns, and it is
grouped if and only if the stage groups.
-/

namespace TablePipeline

open Outcome

/-- The table is not grouped and its rows have the columns of the first one. -/
structure Table.Plain (t : Table) : Prop where
  ungrouped : t.groups = none
  uniform : ∀ row ∈ t.rows, row.names = t.columns

instance (t : Table) : Decidable t.Plain :=
  decidable_of_iff (t.groups = none ∧ ∀ row ∈ t.rows, row.names = t.columns)
    ⟨fun h => ⟨h.1, h.2⟩, fun h => ⟨h.1, h.2⟩⟩

abbrev Catalog.Plain (catalog : Catalog) : Prop := ∀ e ∈ catalog.entries, e.2.Plain

/-- What is inferred after a stage: the columns of its table, whether the table is grouped, and the
columns of the tables registered so far. -/
structure Inferred where
  columns : NameSet
  grouped : Bool
  registry : NameMap NameSet

def Stage.isGroup : Stage → Bool
  | .group _ => true
  | _ => false

/-- The columns of the aggregates of a summary, none if one of them is no aggregate. -/
def outputNames (aggregates : List Expr) : List String :=
  match Table.summaryNames [indexColumn] aggregates with
  | .ok names => names
  | .error _ => []

namespace Inferred

/-- What is inferred before the first stage of a pipeline. -/
def start (registry : NameMap NameSet) : Inferred := { columns := ∅, grouped := false, registry }

/-- The columns that a registered table has, none if nothing is registered. -/
def registered (registry : NameMap NameSet) (name : String) : NameSet :=
  (registry.get? name).getD ∅

def columnsAfter (catalog : Catalog) (known : Inferred) : Stage → NameSet
  | .load source => .ofNames ((catalog.get? source).elim [] Table.columns)
  | .select columns => columns
  | .filter _ | .notify _ | .visualize _ => known.columns
  | .mutate column _ => known.columns.insert column ()
  | .group column => (known.columns.erase column).insert indexColumn ()
  | .summarize aggregates => Table.summaryColumns known.grouped (outputNames aggregates)
  | .join leftName leftColumn rightName rightColumn =>
    Table.joinColumns (registered known.registry leftName) leftColumn
      (registered known.registry rightName) rightColumn

def registryAfter (known : Inferred) : Stage → NameMap NameSet
  | .notify name => known.registry.insert name known.columns
  | _ => known.registry

def step (catalog : Catalog) (known : Inferred) (stage : Stage) : Inferred :=
  { columns := known.columnsAfter catalog stage
    grouped := stage.isGroup
    registry := known.registryAfter stage }

end Inferred

/-- What is inferred after some stages at the start of a pipeline. -/
def Pipeline.infer (catalog : Catalog) (registry : NameMap NameSet) (stages : List Stage) :
    Inferred :=
  stages.foldl (Inferred.step catalog) (.start registry)

namespace Program

def inferRegistry (catalog : Catalog) (registry : NameMap NameSet) (p : Program) :
    NameMap NameSet :=
  p.foldl (fun registry pipeline => (Pipeline.infer catalog registry pipeline).registry) registry

/-- What is inferred after stage `k` of pipeline `i`, both counted from zero. -/
def inferAt (catalog : Catalog) (p : Program) (i k : Nat) : Inferred :=
  Pipeline.infer catalog (inferRegistry catalog ∅ (p.take i)) ((p.getD i []).take (k + 1))

/-- The run of a program gets through its first `i` pipelines and the first `k` stages of the next
one, and the stage after them makes a table. -/
inductive Makes (options : RunOptions) (env : Environment) (p : Program) (i k : Nat) :
    Stage → Table → Prop
  | intro {n : Nat} {pipeline : Pipeline} {stage : Stage} {input output : Table}
      {env₁ env₂ env₃ : Environment}
      (pipelines : runFrom options env 0 (p.take i) = (env₁, .ok n))
      (pipeline_eq : p[i]? = some pipeline)
      (stages : Pipeline.runFrom (note options env₁ (title i ++ " started")) Table.empty
        (pipeline.take k) = (env₂, .ok input))
      (stage_eq : pipeline[k]? = some stage)
      (run : stage.run env₂ input = .ok (env₃, output)) : Makes options env p i k stage output

end Program

/-! ### One stage -/

/-- The environment holds the catalog, and its tables have the inferred columns. -/
structure Environment.Tracked (catalog : Catalog) (registry : NameMap NameSet)
    (env : Environment) : Prop where
  catalog_eq : env.catalog = catalog
  registered : ∀ name t, env.registry.get? name = some t →
    t.HasColumns (Inferred.registered registry name)

/-- The table has the inferred columns and groups. -/
structure Table.Described (known : Inferred) (t : Table) : Prop where
  columns : t.HasColumns known.columns
  grouped : t.groups.isSome = known.grouped
  tiled : ∀ groups, t.groups = some groups → Group.Tile 0 groups t.rows.length

variable {catalog : Catalog} {registry : NameMap NameSet} {known : Inferred}
  {env env' : Environment} {input output : Table} {stage : Stage}

theorem Environment.Tracked.of_registry_eq (h : env.Tracked catalog registry)
    (hc : env'.catalog = env.catalog) (hr : env'.registry = env.registry) :
    env'.Tracked catalog registry :=
  ⟨hc.trans h.catalog_eq, by rw [hr]; exact h.registered⟩

theorem Environment.Tracked.register (h : env.Tracked catalog registry) {name : String}
    {t : Table} {columns : NameSet} (ht : t.HasColumns columns) :
    (env.register name t).Tracked catalog (registry.insert name columns) := by
  refine ⟨h.catalog_eq, fun name' u hu => ?_⟩
  change (env.registry.insert name t).get? name' = some u at hu
  rw [NameMap.get?_insert] at hu
  rw [Inferred.registered, NameMap.get?_insert]
  split at hu
  · next hname =>
    cases hu
    rwa [if_pos hname]
  · next hname =>
    rw [if_neg hname]
    exact h.registered name' u hu

theorem Table.Described.of_ungrouped {columns : NameSet} {t : Table}
    (h : t.HasColumns columns ∧ t.groups = none) :
    t.Described { columns, grouped := false, registry } := by
  refine ⟨h.1, ?_, fun groups hg => ?_⟩
  · rw [h.2]
    rfl
  · rw [h.2] at hg
    cases hg

theorem hasColumns_of_load {source : String} {t : Table} (hc : catalog.Plain)
    (h : catalog.load source = .ok t) :
    t.HasColumns (.ofNames ((catalog.get? source).elim [] Table.columns)) ∧ t.groups = none := by
  unfold Catalog.load at h
  split at h
  · next u hu =>
    cases h
    have hplain := hc _ (NameMap.mem_entries_of_get? hu)
    refine ⟨fun row hrow => ?_, hplain.ungrouped⟩
    rw [hu, Option.elim_some, ← hplain.uniform row hrow, NameMap.ofNames_names]
  · cases h

theorem hasColumns_of_lookup (henv : env.Tracked catalog registry) {name : String} {t : Table}
    (h : env.lookup name = .ok t) : t.HasColumns (Inferred.registered registry name) := by
  unfold Environment.lookup at h
  split at h
  · next u hu =>
    cases h
    exact henv.registered name t hu
  · cases h

/-- A stage that succeeds leaves what is inferred after it. -/
theorem Stage.run_described (hc : catalog.Plain) (henv : env.Tracked catalog known.registry)
    (hin : input.Described known) (h : stage.run env input = .ok (env', output)) :
    env'.Tracked catalog (known.step catalog stage).registry ∧
      output.Described (known.step catalog stage) := by
  cases stage with
  | load source =>
    obtain ⟨t, ht, h⟩ := bind_eq_ok.mp h
    cases pure_eq_ok.mp h
    exact ⟨henv, .of_ungrouped (hasColumns_of_load hc (henv.catalog_eq ▸ ht))⟩
  | select columns =>
    obtain ⟨t, ht, h⟩ := bind_eq_ok.mp h
    cases pure_eq_ok.mp h
    exact ⟨henv, .of_ungrouped (Table.hasColumns_select ht)⟩
  | filter predicate =>
    obtain ⟨t, ht, h⟩ := bind_eq_ok.mp h
    cases pure_eq_ok.mp h
    exact ⟨henv, .of_ungrouped (Table.hasColumns_filter hin.columns ht)⟩
  | mutate column value =>
    obtain ⟨t, ht, h⟩ := bind_eq_ok.mp h
    cases pure_eq_ok.mp h
    exact ⟨henv, .of_ungrouped (Table.hasColumns_mutate hin.columns ht)⟩
  | group column =>
    obtain ⟨t, ht, h⟩ := bind_eq_ok.mp h
    cases pure_eq_ok.mp h
    obtain ⟨hcols, groups, hgroups, htile⟩ := Table.hasColumns_group hin.columns ht
    refine ⟨henv, hcols, by rw [hgroups]; rfl, fun groups' hgroups' => ?_⟩
    rw [hgroups] at hgroups'
    cases hgroups'
    exact htile
  | summarize aggregates =>
    obtain ⟨t, ht, h⟩ := bind_eq_ok.mp h
    cases pure_eq_ok.mp h
    obtain ⟨names, hnames, hcols, hgroups⟩ := Table.hasColumns_summarize ht
    have houtput : outputNames aggregates = names := by rw [outputNames, hnames]
    refine ⟨henv, .of_ungrouped ⟨?_, hgroups⟩⟩
    rw [Inferred.columnsAfter, houtput, ← hin.grouped]
    exact hcols
  | notify name =>
    cases h
    exact ⟨henv.register hin.columns, .of_ungrouped ⟨hin.columns, rfl⟩⟩
  | join leftName leftColumn rightName rightColumn =>
    obtain ⟨left, hleft, h⟩ := bind_eq_ok.mp h
    obtain ⟨right, hright, h⟩ := bind_eq_ok.mp h
    obtain ⟨t, ht, h⟩ := bind_eq_ok.mp h
    cases pure_eq_ok.mp h
    exact ⟨henv, .of_ungrouped (Table.hasColumns_join (hasColumns_of_lookup henv hleft)
      (hasColumns_of_lookup henv hright) ht)⟩
  | visualize plot =>
    obtain ⟨spec, -, h⟩ := bind_eq_ok.mp h
    cases pure_eq_ok.mp h
    exact ⟨henv.of_registry_eq rfl rfl, .of_ungrouped ⟨hin.columns, rfl⟩⟩

/-- A stage that fails does not fail for ragged rows. -/
theorem Stage.run_not_ragged (hin : input.Described known) :
    Raises (fun e => ¬ e.Ragged) (stage.run env input) := by
  have cells : ∀ e : Error, e.OfCells → ¬ e.Ragged := fun _ h => h.ofData.not_ragged
  have even {rows : List Row} {columns : NameSet} (h : ∀ row ∈ rows, row.nameSet = columns) :
      Raises (fun e => ¬ e.Ragged) (Table.ofRows rows) := by
    rw [Table.ofRows_of_hasColumns h]
    exact .ok _
  cases stage with
  | load source => exact .bind (env.catalog.load_raises id) fun _ _ => .ok _
  | select columns =>
    refine .bind (Table.select_raises cells fun rows h => ?_) fun _ _ => .ok _
    exact even (Table.nameSet_of_projected h)
  | filter predicate =>
    refine .bind (Table.filter_raises cells (.inr fun _ => id) fun rows h => ?_) fun _ _ => .ok _
    exact even fun row hrow => hin.columns row (h row hrow)
  | mutate column value =>
    refine .bind (Table.mutate_raises cells (.inr fun _ => id) fun rows h => ?_) fun _ _ => .ok _
    exact even (Table.nameSet_of_setColumns hin.columns h)
  | group column => exact .bind (Table.group_raises cells column) fun _ _ => .ok _
  | summarize aggregates =>
    refine .bind (Table.summarize_raises cells (.inr id) fun names rows hnames h => ?_)
      fun _ _ => .ok _
    exact even (Table.nameSet_of_summaryRows (Table.length_summaryNames hnames) h)
  | notify name => exact .ok _
  | join leftName leftColumn rightName rightColumn =>
    refine .bind (env.lookup_raises id) fun left _ => ?_
    refine .bind (env.lookup_raises id) fun right _ => ?_
    exact .bind (Table.join_raises cells left leftColumn right rightColumn) fun _ _ => .ok _
  | visualize plot => exact .bind (Plot.spec_raises cells input (.inr id)) fun _ _ => .ok _

/-! ### Whole runs -/

/-- Stages that succeed one after the other leave what is inferred after them. -/
theorem Pipeline.runFrom_described (hc : catalog.Plain) {stages : List Stage}
    (henv : env.Tracked catalog known.registry) (hin : input.Described known)
    (h : Pipeline.runFrom env input stages = (env', .ok output)) :
    env'.Tracked catalog (stages.foldl (Inferred.step catalog) known).registry ∧
      output.Described (stages.foldl (Inferred.step catalog) known) := by
  induction stages generalizing env input known with
  | nil =>
    cases h
    exact ⟨henv, hin⟩
  | cons stage rest ih =>
    rw [Pipeline.runFrom] at h
    split at h
    · next env₁ output₁ hrun =>
      obtain ⟨henv₁, hout₁⟩ := Stage.run_described hc henv hin hrun
      exact ih henv₁ hout₁ h
    · cases h

theorem Pipeline.runFrom_not_ragged (hc : catalog.Plain) {stages : List Stage}
    (henv : env.Tracked catalog known.registry) (hin : input.Described known) :
    Raises (fun e => ¬ e.Ragged) (Pipeline.runFrom env input stages).2 := by
  induction stages generalizing env input known with
  | nil => exact .ok _
  | cons stage rest ih =>
    rw [Pipeline.runFrom]
    split
    · next env₁ output₁ hrun =>
      obtain ⟨henv₁, hout₁⟩ := Stage.run_described hc henv hin hrun
      exact ih henv₁ hout₁
    · next e hrun => exact .error (Stage.run_not_ragged hin e hrun)

/-- The table that a pipeline starts with. -/
theorem Table.empty_described : Table.empty.Described (.start registry) :=
  ⟨fun _ h => (List.not_mem_nil h).elim, rfl, fun _ h => nomatch h⟩

theorem Environment.Tracked.note (h : env.Tracked catalog registry) (options : RunOptions)
    (message : String) : (Program.note options env message).Tracked catalog registry := by
  unfold Program.note
  split
  · exact h.of_registry_eq rfl rfl
  · exact h

theorem Pipeline.run_tracked (hc : catalog.Plain) (henv : env.Tracked catalog registry)
    {options : RunOptions} {p : Pipeline} (h : p.run options env = (env', .ok ())) :
    env'.Tracked catalog (Pipeline.infer catalog registry p).registry := by
  unfold Pipeline.run at h
  split at h
  · next env₁ output₁ hrun =>
    obtain ⟨henv₁, -⟩ := Pipeline.runFrom_described hc henv Table.empty_described hrun
    cases h
    split
    · exact henv₁.of_registry_eq rfl rfl
    · exact henv₁
  · cases h

theorem Pipeline.run_not_ragged (hc : catalog.Plain) (henv : env.Tracked catalog registry)
    (options : RunOptions) (p : Pipeline) :
    Raises (fun e => ¬ e.Ragged) (p.run options env).2 := by
  have hstages : Raises (fun e => ¬ e.Ragged) (Pipeline.runFrom env Table.empty p).2 :=
    Pipeline.runFrom_not_ragged hc henv Table.empty_described
  unfold Pipeline.run
  split
  · exact .ok _
  · next e hrun =>
    rw [hrun] at hstages
    exact .error (hstages e rfl)

/-- Every stage of a pipeline that runs to its end succeeds on the table of the stages before. -/
theorem Pipeline.runFrom_take {stages : List Stage} {k : Nat}
    (h : Pipeline.runFrom env input stages = (env', .ok output)) (hk : stages[k]? = some stage) :
    ∃ env₁ mid env₂ made, Pipeline.runFrom env input (stages.take k) = (env₁, .ok mid) ∧
      stage.run env₁ mid = .ok (env₂, made) := by
  obtain ⟨hlt, rfl⟩ := List.getElem?_eq_some_iff.mp hk
  rw [← List.take_append_drop k stages, List.drop_eq_getElem_cons hlt] at h
  obtain ⟨env₁, mid, htake, hrest⟩ := Pipeline.runFrom_prefix h
  rw [Pipeline.runFrom] at hrest
  split at hrest
  · next env₂ made hrun => exact ⟨env₁, mid, env₂, made, htake, hrun⟩
  · cases hrest

namespace Program

theorem runFrom_tracked (hc : catalog.Plain) {options : RunOptions} {p : Program} {n m : Nat}
    (henv : env.Tracked catalog registry) (h : runFrom options env n p = (env', .ok m)) :
    env'.Tracked catalog (inferRegistry catalog registry p) := by
  induction p generalizing env registry n with
  | nil =>
    cases h
    exact henv
  | cons pipeline rest ih =>
    rw [runFrom] at h
    split at h
    · next env₁ hrun => exact ih ((Pipeline.run_tracked hc (henv.note ..) hrun).note ..) h
    · cases h

theorem runFrom_not_ragged (hc : catalog.Plain) {options : RunOptions} {p : Program} {n : Nat}
    (henv : env.Tracked catalog registry) :
    Raises (fun e => ¬ e.Ragged) (runFrom options env n p).2 := by
  induction p generalizing env registry n with
  | nil => exact .ok _
  | cons pipeline rest ih =>
    have hpipeline := Pipeline.run_not_ragged hc
      (henv.note options (title n ++ " started")) options pipeline
    rw [runFrom]
    split
    · next env₁ hrun => exact ih ((Pipeline.run_tracked hc (henv.note ..) hrun).note ..)
    · next e hrun =>
      rw [hrun] at hpipeline
      exact .error (hpipeline e rfl)

theorem fresh_tracked (catalog : Catalog) : (Environment.fresh catalog).Tracked catalog ∅ :=
  ⟨rfl, fun _ _ h => nomatch h⟩

/-- A table that the run of a program makes is described by what is inferred at its stage. -/
theorem Makes.described (hc : catalog.Plain) {options : RunOptions} {p : Program} {i k : Nat}
    (h : p.Makes options (.fresh catalog) i k stage output) :
    output.Described (p.inferAt catalog i k) ∧
      (p.inferAt catalog i k).grouped = stage.isGroup := by
  obtain ⟨pipelines, pipeline_eq, stages, stage_eq, run⟩ := h
  next pipeline _ env₁ env₂ env₃ =>
  have henv := (runFrom_tracked hc (fresh_tracked catalog) pipelines).note options
    (title i ++ " started")
  obtain ⟨henv₂, hin⟩ := Pipeline.runFrom_described hc henv Table.empty_described stages
  have hout := (Stage.run_described hc henv₂ hin run).2
  have hinfer : p.inferAt catalog i k = ((pipeline.take k).foldl (Inferred.step catalog)
      (.start (inferRegistry catalog ∅ (p.take i)))).step catalog stage := by
    rw [inferAt, List.getD_eq_getElem?_getD, pipeline_eq, Option.getD_some, Pipeline.infer,
      List.take_add_one, stage_eq, List.foldl_append]
    rfl
  rw [hinfer]
  exact ⟨hout, rfl⟩

theorem runFrom_take {options : RunOptions} {p : Program} {n m i : Nat} {pipeline : Pipeline}
    (h : runFrom options env n p = (env', .ok m)) (hi : p[i]? = some pipeline) :
    ∃ env₁ env₂, runFrom options env n (p.take i) = (env₁, .ok (n + i)) ∧
      pipeline.run options (note options env₁ (title (n + i) ++ " started"))
        = (env₂, .ok ()) := by
  obtain ⟨hlt, rfl⟩ := List.getElem?_eq_some_iff.mp hi
  rw [← List.take_append_drop i p, List.drop_eq_getElem_cons hlt] at h
  obtain ⟨env₁, htake, hrest⟩ := runFrom_prefix h
  rw [List.length_take_of_le (by omega)] at htake hrest
  rw [runFrom] at hrest
  split at hrest
  · next env₂ hrun => exact ⟨env₁, env₂, htake, hrun⟩
  · cases hrest

/-- In a run that succeeds every stage makes a table. -/
theorem makes_of_run {options : RunOptions} {p : Program} {report : RunReport}
    (h : p.run options env = (env', .ok report)) {i k : Nat} {pipeline : Pipeline}
    (hi : p[i]? = some pipeline) (hk : pipeline[k]? = some stage) :
    ∃ output, p.Makes options env i k stage output := by
  unfold run at h
  split at h
  · next env'' m hrun =>
    obtain ⟨env₁, env₂, htake, hpipeline⟩ := runFrom_take hrun hi
    rw [Nat.zero_add] at htake hpipeline
    unfold Pipeline.run at hpipeline
    split at hpipeline
    · next env₃ output hstages =>
      obtain ⟨env₄, input, env₅, output', hinput, houtput⟩ := Pipeline.runFrom_take hstages hk
      exact ⟨output', .intro htake hi hinput hk houtput⟩
    · cases hpipeline
  · cases h

theorem run_not_ragged (hc : catalog.Plain) (options : RunOptions) (p : Program) :
    Raises (fun e => ¬ e.Ragged) (p.run options (.fresh catalog)).2 := by
  have hrun : Raises (fun e => ¬ e.Ragged) (runFrom options (.fresh catalog) 0 p).2 :=
    runFrom_not_ragged hc (fresh_tracked catalog)
  unfold run
  split
  · exact .ok _
  · next e he =>
    rw [he] at hrun
    exact .error (hrun e rfl)

/-- Whatever a program does to plain tables, every table that it makes has the columns inferred
before the run, in all its rows. It is grouped if and only if its stage groups, and its groups
cover its rows. No run fails for rows with different columns. -/
theorem run_has_inferred_columns (hc : catalog.Plain) (options : RunOptions) (p : Program) :
    (∀ i k stage output, p.Makes options (.fresh catalog) i k stage output →
      (∀ row ∈ output.rows, row.nameSet = (p.inferAt catalog i k).columns) ∧
      (output.groups.isSome = true ↔ ∃ column, stage = .group column) ∧
      (∀ groups, output.groups = some groups → Group.Tile 0 groups output.rows.length)) ∧
    (∀ e, (p.run options (.fresh catalog)).2 = .error e → e.code ≠ "SchemaMismatch") := by
  refine ⟨fun i k stage output h => ?_, fun e he hcode => ?_⟩
  · obtain ⟨hout, hgroup⟩ := h.described hc
    refine ⟨hout.columns, ?_, hout.tiled⟩
    rw [hout.grouped, hgroup]
    cases stage <;> simp [Stage.isGroup]
  · refine run_not_ragged hc options p e he ?_
    cases e <;> simp [Error.code, Error.Ragged] at hcode ⊢

/-- Two tables under one name, the second of them a join of the first with itself, and a join of
that one with itself in groups. -/
def joinTwice : Program :=
  [[.load "double", .notify "d"], [.join "d" "first" "d" "first", .notify "d"],
    [.join "d" "_join_" "d" "_join_", .group "left_left_second"]]

/-- The tables that the second and the third pipeline make have the inferred columns. -/
theorem joinTwice_has_inferred_columns :
    Catalog.Plain (.ofList [("double", Catalog.double)]) ∧
    (∃ output, joinTwice.Makes {} (.fresh (.ofList [("double", Catalog.double)])) 1 0
        (.join "d" "first" "d" "first") output ∧ output.rows.length = 2 ∧
      ∀ row ∈ output.rows, row.nameSet = .ofNames ["_join_", "left_second", "right_second"]) ∧
    ∃ output, joinTwice.Makes {} (.fresh (.ofList [("double", Catalog.double)])) 2 1
        (.group "left_left_second") output ∧
      output.groups = some [⟨.int 100, 0, 1⟩, ⟨.int 200, 1, 2⟩] ∧
      ∀ row ∈ output.rows, row.nameSet
        = .ofNames ["Index", "_join_", "left_right_second", "right_left_second",
            "right_right_second"] := by
  have hc : Catalog.Plain (.ofList [("double", Catalog.double)]) := by decide
  obtain ⟨hmade, -⟩ := run_has_inferred_columns hc {} joinTwice
  have hjoin := hmade 1 0 _ _ (.intro rfl rfl rfl rfl rfl)
  have hgroup := hmade 2 1 _ _ (.intro rfl rfl rfl rfl rfl)
  refine ⟨hc, ⟨_, .intro rfl rfl rfl rfl rfl, rfl, fun row hrow => ?_⟩,
    _, .intro rfl rfl rfl rfl rfl, rfl, fun row hrow => ?_⟩
  · rw [hjoin.1 row hrow]
    decide
  · rw [hgroup.1 row hrow]
    decide

end Program

end TablePipeline
