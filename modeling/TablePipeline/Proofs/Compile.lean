import TablePipeline.Proofs.Doubles
import TablePipeline.Proofs.Failure
import TablePipeline.Proofs.NameMap
import TablePipeline.Proofs.WellFormed
/-!
# What compiled programs can rely on

Every reader of a block checks what it reads, so that a workspace that compiles has a well-formed
program (`Workspace.compile_wellFormed`). A run of such a program never meets an aggregate or a bin
count where none may stand.
-/

namespace TablePipeline

open Outcome (Yields Raises bind_eq_ok)

namespace Block

variable {b : Block} {id field : String}

theorem textField_yields : Yields (· ≠ "") (b.textField id field) := by
  refine .seq fun f => ?_
  cases f with
  | text s =>
    change Yields _ (if s = "" then _ else _)
    split
    · exact .error _
    · next hs => exact .ok hs
  | number n | block inner | blocks inners | other j => exact .error _

theorem columnName_yields : Yields (· ≠ "") (b.columnName id) := by
  unfold columnName
  split
  · exact .error _
  split
  · exact textField_yields
  · exact .error _

theorem columnOf_yields (f : Field Block) : Yields (· ≠ "") (columnOf id field f) := by
  unfold columnOf
  split
  · split
    · exact .error _
    · next hs => exact .ok hs
  · exact columnName_yields
  · exact .error _

theorem columnField_yields : Yields (· ≠ "") (b.columnField id field) :=
  .seq fun f => columnOf_yields f

theorem select_wellFormed {names : List String} (hne : names ≠ []) (h : ∀ name ∈ names, name ≠ "") :
    (Stage.select (.ofNames names)).WellFormed := by
  have hmem : ∀ name, name ∈ (NameSet.ofNames names).names ↔ name ∈ names := fun name =>
    NameMap.mem_names.trans NameSet.contains_ofNames
  obtain ⟨first, hfirst⟩ := List.exists_mem_of_ne_nil names hne
  refine ⟨fun hempty => ?_, fun name hname => h name ((hmem name).mp hname)⟩
  have hin := (hmem first).mpr hfirst
  rw [hempty] at hin
  cases hin

theorem columnsField_yields :
    Yields (fun columns => (Stage.select columns).WellFormed) (b.columnsField id field) := by
  have hset : ∀ names : List String, (∀ name ∈ names, name ≠ "") →
      Yields (fun columns => (Stage.select columns).WellFormed)
        (if names.isEmpty then faulty id .noColumns else .ok (.ofNames names)) := by
    intro names h
    split
    · exact .error _
    · next hne => exact .ok (select_wellFormed (fun heq => hne (heq ▸ rfl)) h)
  refine .seq fun f => ?_
  have hone : Yields (· ≠ "") (columnOf id field f) := columnOf_yields f
  cases f with
  | blocks inners => exact .bind (.mapM fun inner _ => columnName_yields) hset
  | number n | text s | block inner | other j =>
    refine .bind hone fun name hname => hset [name] ?_
    simpa using hname

theorem valueOfNumber_isLiteral (n : Json.Number) : (valueOfNumber n).IsLiteral := by
  unfold valueOfNumber
  split
  · exact trivial
  next hn =>
  cases n with
  | unsigned n => exact Binary64.isFinite_ofNat n.toNat_lt
  | signed n => cases hn
  | float x => exact x.finite

theorem numberOfText?_isLiteral {s : String} {v : Value} (h : numberOfText? s = some v) :
    v.IsLiteral := by
  simp only [numberOfText?] at h
  split at h
  · cases h
    exact trivial
  split at h
  · split at h
    · next hx =>
      cases h
      exact hx
    · cases h
  · cases h

theorem numberOf_yields (f : Field Block) : Yields Value.IsLiteral (numberOf id field f) := by
  unfold numberOf
  split
  · exact .ok (valueOfNumber_isLiteral _)
  · split
    · next hv => exact .ok (numberOfText?_isLiteral hv)
    · exact .error _
  · exact .error _

mutual

theorem rowExpr_yields (id : String) : ∀ b : Block, Yields Expr.WellFormed (b.rowExpr id)
  | ⟨name, kind, fields, next⟩ => by
    rw [rowExpr]
    cases Kind.ofName kind with
    | number => exact .seq fun f => .bind (numberOf_yields f) fun v hv => .ok hv
    | text =>
      refine .seq fun f => ?_
      cases f with
      | text s => exact .ok trivial
      | number n | block inner | blocks inners | other j => exact .error _
    | missing => exact .ok trivial
    | boolean =>
      refine .seq fun s => ?_
      split
      · exact .ok trivial
      split
      · exact .ok trivial
      · exact .error _
    | column => exact .bind textField_yields fun s hs => .ok hs
    | compare =>
      refine .seq fun op => .bind (operand_yields id "A" fields) fun left hleft => ?_
      exact .bind (operand_yields id "B" fields) fun right hright => .ok ⟨hleft, hright⟩
    | arithmetic =>
      refine .seq fun op => .bind (operand_yields id "A" fields) fun left hleft => ?_
      exact .bind (operand_yields id "B" fields) fun right hright => .ok ⟨hleft, hright⟩
    | dataset name | namedDataset | join | select | filter | mutate | group | summarize | notify
    | histogram | bar | scatter | aggregate f | unknown => exact .error _

theorem operand_yields (id field : String) :
    ∀ fields : List (String × Field Block), Yields Expr.WellFormed (operand id field fields)
  | [] => .error _
  | (name, f) :: rest => by
    rw [operand]
    split
    · exact operandOf_yields id field f
    · exact operand_yields id field rest

theorem operandOf_yields (id field : String) :
    ∀ f : Field Block, Yields Expr.WellFormed (operandOf id field f)
  | .block inner => by
    rw [operandOf]
    exact rowExpr_yields _ inner
  | .number _ | .text _ | .blocks _ | .other _ => .error _

end

theorem operand_eq (id field : String) (fields : List (String × Field Block)) :
    operand id field fields = match fields.lookup field with
      | some f => operandOf id field f
      | none => faulty id (.missingOperand field) := by
  induction fields with
  | nil => rfl
  | cons e rest ih =>
    obtain ⟨name, f⟩ := e
    rw [operand, lookup_cons_eq, ih]
    split <;> rfl

theorem aggregateExpr_yields : Yields Expr.WellFormedAggregate (b.aggregateExpr id) := by
  unfold aggregateExpr
  split
  · exact .bind columnField_yields fun name hname => .ok hname
  · exact .error _

theorem aggregatesField_yields :
    Yields (fun aggregates => (Stage.summarize aggregates).WellFormed)
      (b.aggregatesField id field) := by
  refine .seq fun f => ?_
  cases f with
  | block inner =>
    refine .bind aggregateExpr_yields fun e he => .ok ⟨List.cons_ne_nil _ _, ?_⟩
    simpa using he
  | blocks inners =>
    cases inners with
    | nil => exact .error _
    | cons inner inners =>
      change Yields _ ((inner :: inners).mapM _)
      rw [List.mapM_cons]
      refine .bind aggregateExpr_yields fun e he => ?_
      refine .bind (.mapM fun inner _ => aggregateExpr_yields) fun es hes => ?_
      exact .ok ⟨List.cons_ne_nil _ _, List.forall_mem_cons.mpr ⟨he, hes⟩⟩
  | number n | text s | other j => exact .error _

theorem count?_pos {v : Value} {n : Nat} (h : count? v = some n) : 1 ≤ n := by
  unfold count? at h
  split at h
  · split at h
    · cases h
      omega
    · cases h
  · split at h
    · split at h
      · cases h
        omega
      · cases h
    · cases h
  · cases h

theorem binCount_yields (f : Field Block) : Yields (1 ≤ ·) (binCount id f) := by
  refine .seq fun v => ?_
  split
  · next hn => exact .ok (count?_pos hn)
  · exact .error _

/-- A block stands for a well-formed stage, if histograms without a count have at least one bin. -/
theorem toStage_yields {defaultBins : Nat} (hbins : 1 ≤ defaultBins) :
    Yields Stage.WellFormed (b.toStage defaultBins id) := by
  unfold toStage
  split
  · exact .bind textField_yields fun name hname => .ok hname
  · split
    · exact .error _
    · next hname => exact .ok hname
  · refine .bind textField_yields fun leftName h₁ => .bind columnField_yields fun left h₂ => ?_
    refine .bind textField_yields fun rightName h₃ => .bind columnField_yields fun right h₄ => ?_
    exact .ok ⟨h₁, h₂, h₃, h₄⟩
  · exact .bind columnsField_yields fun columns hcolumns => .ok hcolumns
  · exact .bind (operand_yields _ _ _) fun predicate hpredicate => .ok hpredicate
  · refine .bind textField_yields fun column hcolumn => ?_
    exact .bind (operand_yields _ _ _) fun value hvalue => .ok ⟨hcolumn, hvalue⟩
  · exact .bind columnField_yields fun column hcolumn => .ok hcolumn
  · exact .bind aggregatesField_yields fun aggregates haggregates => .ok haggregates
  · exact .bind textField_yields fun name hname => .ok hname
  · refine .bind columnField_yields fun column hcolumn => ?_
    split
    · exact .ok ⟨hcolumn, hbins⟩
    · exact .bind (binCount_yields _) fun bins h => .ok ⟨hcolumn, h⟩
  · refine .bind columnField_yields fun x hx => .bind columnField_yields fun y hy => ?_
    exact .ok ⟨hx, hy⟩
  · refine .bind columnField_yields fun x hx => .bind columnField_yields fun y hy => ?_
    split
    · exact .ok ⟨hx, hy, nofun⟩
    · refine .bind (columnOf_yields _) fun color hcolor => .ok ⟨hx, hy, ?_⟩
      simpa using hcolor
  · exact .error _
  · exact .error _

/-- The type of a block says whether its stage is a source. -/
theorem toStage_isSource {defaultBins : Nat} :
    Yields (fun stage => stage.isSource = decide ((Kind.ofName b.kind).role = .source))
      (b.toStage defaultBins id) := by
  unfold toStage
  cases Kind.ofName b.kind with
  | namedDataset => exact .seq fun name => .ok rfl
  | dataset name =>
    change Yields _ (if name = "" then _ else _)
    split
    · exact .error _
    · exact .ok rfl
  | join => exact .seq fun _ => .seq fun _ => .seq fun _ => .seq fun _ => .ok rfl
  | select | filter | group | summarize | notify => exact .seq fun _ => .ok rfl
  | mutate | bar => exact .seq fun _ => .seq fun _ => .ok rfl
  | histogram =>
    refine .seq fun _ => ?_
    split
    · exact .ok rfl
    · exact .seq fun _ => .ok rfl
  | scatter =>
    refine .seq fun _ => .seq fun _ => ?_
    split
    · exact .ok rfl
    · exact .seq fun _ => .ok rfl
  | number | text | missing | boolean | column | compare | arithmetic | aggregate f | unknown =>
    exact .error _

theorem stages_eq_ok_nil {defaultBins stack depth : Nat} {blocks : List Block} :
    stages defaultBins stack depth blocks = .ok [] ↔ blocks = [] := by
  constructor
  · intro h
    cases blocks with
    | nil => rfl
    | cons b below =>
      rw [stages] at h
      obtain ⟨stage, -, h⟩ := bind_eq_ok.mp h
      split at h
      · cases h
      split at h
      · cases h
      obtain ⟨rest, -, h⟩ := bind_eq_ok.mp h
      cases h
  · rintro rfl
    rfl

/-- What has to hold of the first of some blocks and of the blocks below it. -/
theorem stages_cons_eq_ok {defaultBins stack depth : Nat} {below : List Block}
    {p : List Stage} :
    stages defaultBins stack depth (b :: below) = .ok p ↔
      ∃ stage rest, p = stage :: rest ∧
        b.toStage defaultBins (b.nameAt stack depth) = .ok stage ∧
        (0 < depth → stage.isSource = false) ∧ (stage.isPlot = true → rest = []) ∧
        stages defaultBins stack (depth + 1) below = .ok rest := by
  rw [stages]
  constructor
  · intro h
    obtain ⟨stage, hstage, h⟩ := bind_eq_ok.mp h
    split at h
    · cases h
    next hsource =>
    split at h
    · cases h
    next hplot =>
    obtain ⟨rest, hrest, h⟩ := bind_eq_ok.mp h
    cases h
    refine ⟨stage, rest, rfl, hstage, by simpa using hsource, fun hstagePlot => ?_, hrest⟩
    have hbelow : below = [] := by simpa [hstagePlot] using hplot
    rw [hbelow] at hrest
    cases hrest
    rfl
  · rintro ⟨stage, rest, rfl, hstage, hsource, hplot, hrest⟩
    have hbelow : stage.isPlot = true → below = [] := by
      intro hstagePlot
      rw [hplot hstagePlot] at hrest
      exact stages_eq_ok_nil.mp hrest
    rw [hstage, Outcome.ok_bind, if_neg (by simpa using hsource), if_neg (by simpa using hbelow),
      hrest]
    rfl

theorem plot_only_last_cons {stage : Stage} {rest : List Stage} :
    (∀ s ∈ (stage :: rest).dropLast, s.isPlot = false) ↔
      (stage.isPlot = true → rest = []) ∧ ∀ s ∈ rest.dropLast, s.isPlot = false := by
  cases rest with
  | nil => simp
  | cons next rest =>
    rw [List.dropLast_cons_cons, List.forall_mem_cons]
    simp

/-- At the top of a stack the first stage may be a source, further down none may. -/
theorem source_only_head_cons {stage : Stage} {rest : List Stage} {depth : Nat} :
    (∀ s ∈ (stage :: rest).drop (1 - depth), s.isSource = false) ↔
      (0 < depth → stage.isSource = false) ∧
        ∀ s ∈ rest.drop (1 - (depth + 1)), s.isSource = false := by
  cases depth with
  | zero => simp
  | succ depth => simp

theorem stages_yields {defaultBins stack depth : Nat} (hbins : 1 ≤ defaultBins)
    {blocks : List Block} {p : List Stage}
    (h : stages defaultBins stack depth blocks = .ok p) :
    (∀ stage ∈ p.drop (1 - depth), stage.isSource = false) ∧
    (∀ stage ∈ p.dropLast, stage.isPlot = false) ∧ ∀ stage ∈ p, stage.WellFormed := by
  induction blocks generalizing depth p with
  | nil =>
    cases h
    simp
  | cons b below ih =>
    obtain ⟨stage, rest, rfl, hstage, hsource, hplot, hrest⟩ := stages_cons_eq_ok.mp h
    obtain ⟨hsources, hplots, hformed⟩ := ih hrest
    exact ⟨source_only_head_cons.mpr ⟨hsource, hsources⟩, plot_only_last_cons.mpr ⟨hplot, hplots⟩,
      List.forall_mem_cons.mpr ⟨toStage_yields hbins stage hstage, hformed⟩⟩

theorem chain_eq_cons (head : Block) : head.chain = head :: chainBelow head.next := by
  obtain ⟨id, kind, fields, next⟩ := head
  rw [chain]

/-- The stack is no pipeline: it starts with a block that cannot start one. -/
def isStray (head : Block) : Bool :=
  (Kind.ofName head.kind).role = .stage ∨ (Kind.ofName head.kind).role = .expression

/-- The pipeline of a stack that is not stray. -/
def toPipeline (defaultBins stack : Nat) (head : Block) : Compiled Pipeline :=
  if (Kind.ofName head.kind).role = .source then stages defaultBins stack 0 head.chain
  else unknownKind (head.nameAt stack 0) head.kind

end Block

namespace Workspace

/-- A stack that starts with a source compiles to a well-formed pipeline. -/
theorem pipeline_wellFormed {defaultBins stack : Nat} (hbins : 1 ≤ defaultBins) {head : Block}
    (hrole : (Kind.ofName head.kind).role = .source) {p : Pipeline}
    (h : Block.stages defaultBins stack 0 head.chain = .ok p) : p.WellFormed := by
  obtain ⟨hsources, hplots, hformed⟩ := Block.stages_yields hbins h
  refine ⟨?_, List.drop_one ▸ hsources, hplots, hformed⟩
  rw [Block.chain_eq_cons] at h
  obtain ⟨stage, rest, rfl, hstage, -⟩ := Block.stages_cons_eq_ok.mp h
  have hsource := Block.toStage_isSource stage hstage
  change stage.isSource = true
  rw [hsource, hrole]
  rfl

/-- The first of some stacks either becomes a pipeline or is counted as stray. -/
theorem compileStacks_cons_eq_ok {defaultBins stack : Nat} {head : Block} {rest : List Block}
    {c : Compilation} :
    compileStacks defaultBins stack (head :: rest) = .ok c ↔
      ∃ c', compileStacks defaultBins (stack + 1) rest = .ok c' ∧
        ((∃ pipeline, (Kind.ofName head.kind).role = .source ∧
            Block.stages defaultBins stack 0 head.chain = .ok pipeline ∧
            c = { c' with program := pipeline :: c'.program }) ∨
          ((Kind.ofName head.kind).role = .stage ∨ (Kind.ofName head.kind).role = .expression) ∧
            c = { c' with strayCount := c'.strayCount + 1 }) := by
  rw [compileStacks, Role.ofName_eq]
  cases hrole : (Kind.ofName head.kind).role with
  | source =>
    constructor
    · intro h
      obtain ⟨pipeline, hpipeline, h⟩ := bind_eq_ok.mp h
      obtain ⟨c', hc', h⟩ := bind_eq_ok.mp h
      cases h
      exact ⟨c', hc', .inl ⟨pipeline, rfl, hpipeline, rfl⟩⟩
    · rintro ⟨c', hc', ⟨pipeline, -, hpipeline, rfl⟩ | ⟨hne, -⟩⟩
      · rw [hpipeline, hc']
        rfl
      · simp at hne
  | stage | expression =>
    constructor
    · intro h
      obtain ⟨c', hc', h⟩ := bind_eq_ok.mp h
      cases h
      exact ⟨c', hc', .inr ⟨by simp, rfl⟩⟩
    · rintro ⟨c', hc', ⟨pipeline, hne, -⟩ | ⟨-, rfl⟩⟩
      · cases hne
      · rw [hc']
        rfl
  | unknown =>
    constructor
    · intro h
      cases h
    · rintro ⟨c', hc', ⟨pipeline, hne, -⟩ | ⟨hne, -⟩⟩
      · cases hne
      · simp at hne

/-- A stray stack is counted, any other one has to become a pipeline. -/
theorem compileStacks_cons (defaultBins stack : Nat) (head : Block) (rest : List Block) :
    compileStacks defaultBins stack (head :: rest) =
      if head.isStray then do
        let c ← compileStacks defaultBins (stack + 1) rest
        return { c with strayCount := c.strayCount + 1 }
      else do
        let pipeline ← head.toPipeline defaultBins stack
        let c ← compileStacks defaultBins (stack + 1) rest
        return { c with program := pipeline :: c.program } := by
  rw [compileStacks, Role.ofName_eq, Block.isStray, Block.toPipeline]
  cases (Kind.ofName head.kind).role with
  | source | stage | expression | unknown => rfl

theorem compileStacks_wellFormed {defaultBins : Nat} (hbins : 1 ≤ defaultBins) {stack : Nat}
    {heads : List Block} {c : Compilation} (h : compileStacks defaultBins stack heads = .ok c) :
    c.program.WellFormed := by
  induction heads generalizing stack c with
  | nil =>
    cases h
    exact nofun
  | cons head rest ih =>
    obtain ⟨c', hc', ⟨pipeline, hrole, hpipeline, rfl⟩ | ⟨-, rfl⟩⟩ :=
      compileStacks_cons_eq_ok.mp h
    · exact List.forall_mem_cons.mpr ⟨pipeline_wellFormed hbins hrole hpipeline, ih hc'⟩
    · exact ih (c := c') hc'

theorem counts_of_compileStacks {defaultBins stack : Nat} {heads : List Block}
    {c : Compilation} (h : compileStacks defaultBins stack heads = .ok c) :
    c.program.length = (heads.filter (!·.isStray)).length ∧
      c.strayCount = (heads.filter (·.isStray)).length := by
  induction heads generalizing stack c with
  | nil =>
    cases h
    exact ⟨rfl, rfl⟩
  | cons head rest ih =>
    obtain ⟨c', hc', ⟨pipeline, hrole, -, rfl⟩ | ⟨hrole, rfl⟩⟩ := compileStacks_cons_eq_ok.mp h
    · have hstray : head.isStray = false := by simp [Block.isStray, hrole]
      obtain ⟨hprogram, hcount⟩ := ih hc'
      simp [hstray, hprogram, hcount]
    · have hstray : head.isStray = true := by simp [Block.isStray, hrole]
      obtain ⟨hprogram, hcount⟩ := ih hc'
      simp [hstray, hprogram, hcount]

theorem compile_wellFormed {defaultBins : Nat} {w : Workspace} {c : Compilation}
    (h : w.compile defaultBins = .ok c) : c.program.WellFormed :=
  compileStacks_wellFormed (Nat.le_max_left 1 defaultBins) h

end Workspace

theorem Expr.WellFormed.rowWise {e : Expr} (h : e.WellFormed) : e.RowWise := by
  induction e with
  | literal v | column name => exact trivial
  | compare op left right ihl ihr | arithmetic op left right ihl ihr =>
    exact ⟨ihl h.1, ihr h.2⟩
  | aggregate f name => exact h

theorem Expr.WellFormedAggregate.isAggregate {e : Expr} (h : e.WellFormedAggregate) :
    e.IsAggregate := by
  cases e with
  | aggregate f name => exact trivial
  | literal v | column name | compare op left right | arithmetic op left right => exact h

theorem Plot.WellFormed.bins?_ne {plot : Plot} (h : plot.WellFormed) : plot.bins? ≠ some 0 := by
  cases plot with
  | histogram column bins =>
    intro hzero
    have hbins : 1 ≤ bins := h.2
    cases hzero
    omega
  | bar x y | scatter x y color => exact nofun

/-- The error depends on the data or says that rows have different columns. -/
def Error.OfRun (e : Error) : Prop := e.OfData ∨ e.Ragged

theorem Stage.WellFormed.inPlace {stage : Stage} (h : stage.WellFormed) : stage.InPlace := by
  cases stage with
  | filter predicate => exact Expr.WellFormed.rowWise h
  | mutate column value => exact Expr.WellFormed.rowWise h.2
  | summarize aggregates => exact fun e he => (h.2 e he).isAggregate
  | visualize plot => exact Plot.WellFormed.bins?_ne h
  | load _ | select _ | group _ | notify _ | join _ _ _ _ => exact trivial

theorem Stage.run_raises {stage : Stage} (h : stage.WellFormed) (env : Environment)
    (input : Table) : Raises Error.OfRun (stage.run env input) :=
  Stage.run_raises_of (fun _ h => .inl h.ofData) (fun _ => .inr) (fun _ => .inl trivial)
    (fun _ _ _ _ _ => ⟨.inl trivial, .inl trivial⟩) (.inl h.inPlace) env input

theorem Pipeline.runFrom_raises {stages : List Stage} (h : ∀ stage ∈ stages, stage.WellFormed)
    (env : Environment) (input : Table) :
    Raises Error.OfRun (Pipeline.runFrom env input stages).2 := by
  induction stages generalizing env input with
  | nil => exact .ok _
  | cons stage rest ih =>
    obtain ⟨hstage, hrest⟩ := List.forall_mem_cons.mp h
    have hrun := Stage.run_raises hstage env input
    rw [Pipeline.runFrom]
    split
    · exact ih hrest _ _
    · next e he => exact .error (hrun e he)

theorem Pipeline.run_raises {p : Pipeline} (h : p.WellFormed) (options : RunOptions)
    (env : Environment) : Raises Error.OfRun (p.run options env).2 := by
  have hstages := Pipeline.runFrom_raises h.stages env Table.empty
  unfold Pipeline.run
  split
  · exact .ok _
  · next e hrun =>
    rw [hrun] at hstages
    exact .error (hstages e rfl)

namespace Program

theorem runFrom_raises {p : Program} (h : p.WellFormed) (options : RunOptions)
    (env : Environment) (n : Nat) : Raises Error.OfRun (runFrom options env n p).2 := by
  induction p generalizing env n with
  | nil => exact .ok _
  | cons pipeline rest ih =>
    obtain ⟨hpipeline, hrest⟩ := List.forall_mem_cons.mp h
    have hrun := Pipeline.run_raises hpipeline options
      (note options env (title n ++ " started"))
    rw [runFrom]
    split
    · exact ih hrest _ _
    · next e he =>
      rw [he] at hrun
      exact .error (hrun e rfl)

theorem run_raises {p : Program} (h : p.WellFormed) (options : RunOptions) (env : Environment) :
    Raises Error.OfRun (p.run options env).2 := by
  have hrun := runFrom_raises h options env 0
  unfold run
  split
  · exact .ok _
  · next e he =>
    rw [he] at hrun
    exact .error (hrun e rfl)

end Program

/-- What a misplaced aggregate and a missing bin count are reported with. -/
def Error.misplaced : List (String × String) :=
  [("row", "column"), ("column", "row expression"), ("bin count", "zero")]

theorem Error.OfRun.not_misplaced {context left right : String}
    (h : (Error.typeMismatch context left right).OfRun) : (left, right) ∉ misplaced := by
  have htypes : ∀ l ∈ Value.typeNames, ∀ r ∈ Value.typeNames, (l, r) ∉ misplaced := by decide
  rcases h with h | h
  · exact htypes left h.1 right h.2
  · exact h.elim

theorem Error.OfRun.not_compile {cause : CompileError} : ¬ (Error.compile cause).OfRun :=
  fun h => h.elim id id

namespace Workspace

theorem compile_error_of_run {w : Workspace} {options : RunOptions} {env : Environment}
    {cause : CompileError} (h : (w.run options env).2 = .error (.compile cause)) :
    w.compile options.defaultBins = .error cause := by
  unfold run at h
  split at h
  · next found hcompile =>
    cases h
    exact hcompile
  · next c hcompile =>
    have hraises := Program.run_raises (compile_wellFormed hcompile) options
    dsimp only at h
    generalize (if 0 < c.strayCount then _ else env) = env₁ at h
    split at h
    · cases h
    · next e he =>
      cases h
      exact (Error.OfRun.not_compile (hraises _ _ (congrArg Prod.snd he))).elim

/-- A workspace that compiles has a well-formed program, whatever its blocks hold. Its run meets
neither a misplaced aggregate nor a histogram without bins, on any data. The run of a workspace
fails to compile only if the workspace does. -/
theorem compile_sound (w : Workspace) (defaultBins : Nat) :
    (∀ c, w.compile defaultBins = .ok c → c.program.WellFormed ∧
      ∀ (options : RunOptions) (env : Environment) (context left right : String),
        (c.program.run options env).2 = .error (.typeMismatch context left right) →
        (left, right) ∉ Error.misplaced) ∧
    ∀ (options : RunOptions) (env : Environment) (cause : CompileError),
      (w.run options env).2 = .error (.compile cause) →
      w.compile options.defaultBins = .error cause := by
  refine ⟨fun c hc => ?_, fun options env cause h => compile_error_of_run h⟩
  have hformed := compile_wellFormed hc
  refine ⟨hformed, fun options env context left right h => ?_⟩
  exact Error.OfRun.not_misplaced (Program.run_raises hformed options env _ h)

/-- A plot of a dataset that does not say how many bins it wants. -/
def plotWithoutBins : Workspace :=
  .ofChains [[.ofFields "data_people" [], .ofFields "ggplot_hist" [("Column", .text "age")]]]

theorem plotWithoutBins_sound :
    plotWithoutBins.compile 0
      = .ok { program := [[.load "people", .visualize (.histogram "age" 1)]], strayCount := 0 } ∧
    Program.WellFormed [[.load "people", .visualize (.histogram "age" 1)]] := by
  have hcompile : plotWithoutBins.compile 0
      = .ok { program := [[.load "people", .visualize (.histogram "age" 1)]], strayCount := 0 } :=
    rfl
  exact ⟨hcompile, ((compile_sound plotWithoutBins 0).1 _ hcompile).1⟩

end Workspace

end TablePipeline
