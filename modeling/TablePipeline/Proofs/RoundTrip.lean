import TablePipeline.Proofs.Compile
import TablePipeline.Workspace.OfProgram
/-!
# From programs to workspaces and back

The block of an expression or a stage is read back as what it stands for if that is well-formed,
and is refused if it is not. A whole program comes back from its workspace if and only if it is
well-formed (`Workspace.compile_ofProgram_iff`).
-/

namespace TablePipeline

open Outcome (Returns bind_eq_ok)

theorem Kind.ofName_aggregate (f : AggregateFn) :
    ofName ("stats_" ++ f.code) = .aggregate f := by
  cases f <;> rfl

namespace Block

variable {id field kind : String} {fields : List (String × Field Block)}

section Fields

theorem lookup_ofFields {f : Field Block} (h : fields.reverse.lookup field = some f) :
    (ofFields kind fields).fields.lookup field = some f := by
  change (sortByName fields).lookup field = some f
  rw [lookup_sortByName, h]

theorem required_ofFields {f : Field Block} (h : fields.reverse.lookup field = some f) :
    (ofFields kind fields).required id field = .ok f := by
  rw [required, lookup_ofFields h]

theorem textField_ofFields {s : String} (h : fields.reverse.lookup field = some (.text s)) :
    Returns s (s ≠ "") ((ofFields kind fields).textField id field) := by
  refine .after (required_ofFields h) ?_
  change Returns s (s ≠ "") (if s = "" then _ else _)
  split
  · next hs => exact .error (not_not_intro hs)
  · next hs => exact Returns.ok.congr (iff_of_true trivial hs)

theorem operatorField_ofFields {α : Type} {ofCode? : String → Option α} {op : α} {code : String}
    (h : fields.reverse.lookup "OP" = some (.text code)) (hne : code ≠ "")
    (hcode : ofCode? code = some op) :
    (ofFields kind fields).operatorField id ofCode? = .ok op := by
  rw [operatorField, (textField_ofFields h).eq_ok hne, Outcome.ok_bind, hcode]
  rfl

theorem columnName_ofColumn (id name : String) :
    Returns name (name ≠ "") ((ofColumn name).columnName id) := by
  have hkind : Kind.ofName "variable_column" = .column := rfl
  change Returns name _ (if "variable_column" = "" then _ else
    if Kind.ofName "variable_column" = .column then (ofColumn name).textField id "TEXT" else _)
  rw [if_neg (by decide), if_pos hkind]
  exact textField_ofFields rfl

theorem columnField_ofFields {name : String}
    (h : fields.reverse.lookup field = some (.block (ofColumn name))) :
    Returns name (name ≠ "") ((ofFields kind fields).columnField id field) :=
  .after (required_ofFields h) (columnName_ofColumn _ name)

theorem operand_ofFields {inner : Block} {e : Expr} {P : Prop}
    (h : fields.reverse.lookup field = some (.block inner))
    (hinner : ∀ id, Returns e P (inner.rowExpr id)) :
    Returns e P (operand id field (ofFields kind fields).fields) := by
  rw [operand_eq, lookup_ofFields h]
  change Returns e P (operandOf id field (.block inner))
  rw [operandOf]
  exact hinner _

/-- Two operands come back together, whatever is made of them. -/
theorem operands_ofFields (kind : String) {code : String} {a b : Block} {left right e : Expr} {P Q : Prop}
    {make : Expr → Expr → Expr} (hleft : ∀ id, Returns left P (a.rowExpr id))
    (hright : ∀ id, Returns right Q (b.rowExpr id)) (he : make left right = e) :
    Returns e (P ∧ Q) (do
      let fields := (ofFields kind [("OP", .text code), ("A", .block a), ("B", .block b)]).fields
      return make (← operand id "A" fields) (← operand id "B" fields)) := by
  subst he
  refine (operand_ofFields rfl hleft).bind ?_
  exact (operand_ofFields rfl hright).map rfl

end Fields

section Expressions

theorem valueOfNumber_ofSigned (n : Int64) : valueOfNumber (.ofSigned n) = .int n := by
  unfold valueOfNumber
  rw [Json.Number.toSigned?_ofSigned]

theorem valueOfNumber_unsigned_of_lt {n : UInt64} (h : n.toNat < 0x8000000000000000) :
    ∃ i : Int64, valueOfNumber (.unsigned n) = .int i ∧ i.toInt = n.toNat := by
  obtain ⟨i, hi, heq⟩ := Json.Number.toSigned?_unsigned_of_lt h
  refine ⟨i, ?_, heq⟩
  unfold valueOfNumber
  rw [hi]

theorem rowExpr_ofNumber (id : String) (n : Json.Number) :
    (ofNumber n).rowExpr id = .ok (.literal (valueOfNumber n)) := by
  change rowExpr id ⟨none, "variable_number", _, none⟩ = _
  rw [rowExpr]
  rfl

/-- The words for infinities and NaN are no numbers. -/
theorem numberOfText?_display {x : Float} (h : Binary64.isFinite x = false) :
    numberOfText? (Value.float x).display = none := by
  have hscaled : Binary64.Scaled.ofFloat? x = none := by
    rw [Binary64.Scaled.ofFloat?, h]
    rfl
  unfold Value.display Binary64.FloatText.write
  simp only [hscaled]
  split
  · rfl
  split
  · rfl
  · rfl

theorem rowExpr_ofFloat (id : String) (x : Float) :
    Returns (.literal (.float x)) (Value.float x).IsLiteral ((ofFloat x).rowExpr id) := by
  unfold ofFloat Json.Number.ofFloat? Binary64.Finite.ofFloat?
  by_cases h : Binary64.isFinite x = true
  · rw [dif_pos h]
    change Returns _ _ ((ofNumber (.float ⟨x, h⟩)).rowExpr id)
    rw [rowExpr_ofNumber]
    exact Returns.ok.congr (iff_of_true trivial h)
  · rw [dif_neg h]
    change Returns _ _ (rowExpr id ⟨none, "variable_number", _, none⟩)
    rw [rowExpr]
    have hnumber : numberOf id "NUM" (.text (Value.float x).display)
        = wrongField id "NUM" "a number" (.text (Value.float x).display) := by
      rw [numberOf, numberOfText?_display (Bool.eq_false_iff.mpr h)]
    exact .after (required_ofFields rfl) (.stop hnumber h)

theorem rowExpr_ofValue (id : String) (v : Value) :
    Returns (.literal v) v.IsLiteral ((ofValue v).rowExpr id) := by
  cases v with
  | missing =>
    change Returns _ _ (rowExpr id ⟨none, "variable_missing", _, none⟩)
    rw [rowExpr]
    exact Returns.ok
  | bool b =>
    change Returns _ _ (rowExpr id ⟨none, "logic_boolean", _, none⟩)
    rw [rowExpr]
    cases b with
    | true => exact .after ((textField_ofFields rfl).eq_ok (by decide)) Returns.ok
    | false => exact .after ((textField_ofFields rfl).eq_ok (by decide)) Returns.ok
  | int n =>
    change Returns _ _ ((ofNumber (.ofSigned n)).rowExpr id)
    rw [rowExpr_ofNumber, valueOfNumber_ofSigned]
    exact Returns.ok
  | float x => exact rowExpr_ofFloat id x
  | text s =>
    change Returns _ _ (rowExpr id ⟨none, "variable_text", _, none⟩)
    rw [rowExpr]
    exact .after (required_ofFields rfl) Returns.ok

/-- The block of an expression is an expression of rows if and only if that is well-formed. -/
theorem rowExpr_ofExpr (id : String) (e : Expr) :
    Returns e e.WellFormed ((ofExpr e).rowExpr id) := by
  induction e generalizing id with
  | literal v => exact rowExpr_ofValue id v
  | column name =>
    change Returns _ _ (rowExpr id ⟨none, "variable_column", _, none⟩)
    rw [rowExpr]
    exact (textField_ofFields rfl).map rfl
  | compare op left right ihl ihr =>
    have hop : (ofExpr (.compare op left right)).operatorField id CompareOp.ofCode? = .ok op :=
      operatorField_ofFields rfl (by cases op <;> decide) op.ofCode?_code
    change Returns _ _ (rowExpr id ⟨none, "variable_compare", _, none⟩)
    rw [rowExpr]
    exact .after hop (operands_ofFields "variable_compare" ihl ihr rfl)
  | arithmetic op left right ihl ihr =>
    have hop : (ofExpr (.arithmetic op left right)).operatorField id ArithmeticOp.ofCode?
        = .ok op :=
      operatorField_ofFields rfl (by cases op <;> decide) op.ofCode?_code
    change Returns _ _ (rowExpr id ⟨none, "stats_arithmetic", _, none⟩)
    rw [rowExpr]
    exact .after hop (operands_ofFields "stats_arithmetic" ihl ihr rfl)
  | aggregate f name =>
    change Returns _ _ (rowExpr id ⟨none, "stats_" ++ f.code, _, none⟩)
    rw [rowExpr, Kind.ofName_aggregate]
    exact .error False.elim

/-- The block of an expression is an aggregate if and only if the expression is a well-formed
one. -/
theorem aggregateExpr_ofExpr (id : String) (e : Expr) :
    Returns e e.WellFormedAggregate ((ofExpr e).aggregateExpr id) := by
  cases e with
  | literal v =>
    cases v with
    | float x =>
      change Returns _ _ ((ofFloat x).aggregateExpr id)
      unfold ofFloat
      split <;> exact .error False.elim
    | missing | bool b | int n | text s => exact .error False.elim
  | column name | compare op left right | arithmetic op left right => exact .error False.elim
  | aggregate f name =>
    have hkind : Kind.ofName (ofExpr (.aggregate f name)).kind = .aggregate f :=
      Kind.ofName_aggregate f
    unfold aggregateExpr
    rw [hkind]
    exact (columnField_ofFields rfl).map rfl

end Expressions

section Stages

theorem columnsField_ofFields {columns : NameSet}
    (h : fields.reverse.lookup field = some (.blocks (columns.names.map ofColumn))) :
    Returns columns (Stage.select columns).WellFormed
      ((ofFields kind fields).columnsField id field) := by
  have hset : Returns columns (columns.names ≠ [])
      (if columns.names.isEmpty then faulty id .noColumns
        else .ok (NameSet.ofNames columns.names)) := by
    rw [NameSet.ofNames_names]
    split
    · next hempty => exact .error (not_not_intro (List.isEmpty_iff.mp hempty))
    · next hne => exact Returns.ok.congr (iff_of_true trivial (mt List.isEmpty_iff.mpr hne))
  refine .after (required_ofFields h) (.congr (.bind (.mapM fun name _ => ?_) hset) and_comm)
  exact columnName_ofColumn _ name

theorem aggregatesField_ofFields {aggregates : List Expr}
    (h : fields.reverse.lookup field = some (.blocks (aggregates.map ofExpr))) :
    Returns aggregates (Stage.summarize aggregates).WellFormed
      ((ofFields kind fields).aggregatesField id field) := by
  refine .after (required_ofFields h) ?_
  cases aggregates with
  | nil => exact .error fun hnil => hnil.1 rfl
  | cons e rest =>
    have hformed : (Stage.summarize (e :: rest)).WellFormed
        ↔ ∀ expr ∈ e :: rest, expr.WellFormedAggregate :=
      and_iff_right (List.cons_ne_nil e rest)
    refine .congr (.mapM fun expr _ => ?_) hformed.symm
    exact aggregateExpr_ofExpr _ expr

theorem binCount_ofNumber {bins : Nat} (h : bins ≤ 0x7fffffffffffffff) :
    Returns bins (1 ≤ bins) (binCount id (.block (ofNumber (.unsigned bins.toUInt64)))) := by
  have hnat : bins.toUInt64.toNat = bins := by
    rw [Nat.toUInt64_eq, UInt64.toNat_ofNat']
    omega
  obtain ⟨i, hvalue, hint⟩ := valueOfNumber_unsigned_of_lt (n := bins.toUInt64) (by omega)
  rw [hnat] at hint
  have hbin : binValue id (.block (ofNumber (.unsigned bins.toUInt64))) = .ok (.int i) := by
    rw [binValue, rowExpr_ofNumber, hvalue]
    rfl
  have hcount : count? (.int i) = if 1 ≤ bins then some bins else none := by
    simp only [count?, hint, Int.toNat_natCast]
    congr 1
    exact propext (by omega)
  refine .after hbin ?_
  rw [hcount]
  by_cases hpos : 1 ≤ bins
  · rw [if_pos hpos]
    exact Returns.ok.congr (iff_of_true trivial hpos)
  · rw [if_neg hpos]
    exact .error hpos

/-- The block of a stage stands for the stage if and only if that is well-formed. -/
theorem toStage_ofStage {defaultBins : Nat} {stage : Stage} (hbins : stage.BinsFit) :
    Returns stage stage.WellFormed ((ofStage stage).toStage defaultBins id) := by
  cases stage with
  | load source => exact (textField_ofFields rfl).map rfl
  | select columns => exact (columnsField_ofFields rfl).map rfl
  | filter predicate => exact (operand_ofFields rfl fun id => rowExpr_ofExpr id predicate).map rfl
  | mutate column value =>
    refine (textField_ofFields rfl).bind ?_
    exact (operand_ofFields rfl fun id => rowExpr_ofExpr id value).map rfl
  | group column => exact (columnField_ofFields rfl).map rfl
  | summarize aggregates => exact (aggregatesField_ofFields rfl).map rfl
  | notify name => exact (textField_ofFields rfl).map rfl
  | join leftName leftColumn rightName rightColumn =>
    refine (textField_ofFields rfl).bind ((columnField_ofFields rfl).bind ?_)
    exact (textField_ofFields rfl).bind ((columnField_ofFields rfl).map rfl)
  | visualize plot =>
    cases plot with
    | histogram column bins =>
      have hlookup : (ofStage (.visualize (.histogram column bins))).fields.lookup "bins"
          = some (.block (ofNumber (.unsigned bins.toUInt64))) := lookup_ofFields rfl
      refine (columnField_ofFields rfl).bind ?_
      rw [hlookup]
      exact (binCount_ofNumber hbins).map rfl
    | bar x y => exact (columnField_ofFields rfl).bind ((columnField_ofFields rfl).map rfl)
    | scatter x y color =>
      cases color with
      | none =>
        have hlookup : (ofStage (.visualize (.scatter x y none))).fields.lookup "color" = none :=
          (lookup_sortByName _ _).trans rfl
        refine (columnField_ofFields rfl).bind ((columnField_ofFields rfl).bind ?_)
        rw [hlookup]
        exact Returns.ok.congr (iff_of_true trivial nofun)
      | some c =>
        have hcolor : Returns c (c ≠ "") (columnOf id "color" (.block (ofColumn c))) :=
          columnName_ofColumn _ c
        have hsome : c ≠ "" ↔ some c ≠ some "" := by simp
        have hlookup : (ofStage (.visualize (.scatter x y (some c)))).fields.lookup "color"
            = some (.block (ofColumn c)) := lookup_ofFields rfl
        refine (columnField_ofFields rfl).bind ((columnField_ofFields rfl).bind ?_)
        rw [hlookup]
        refine .congr (.map hcolor ?_) hsome
        rfl

theorem chainBelow_stack? (b : Block) (rest : List Block) :
    chainBelow (stack? (b :: rest)) = { b with next := stack? rest } :: chainBelow (stack? rest) := by
  rw [stack?, chainBelow, chain]

/-- The block of a well-formed stage is read as what the stage is mapped to, which can stand where
the stage can. -/
structure ReadAs (defaultBins : Nat) (back : Stage → Stage) (stage : Stage) : Prop where
  returns : ∀ id, Returns (back stage) stage.WellFormed ((ofStage stage).toStage defaultBins id)
  isSource : (back stage).isSource = stage.isSource
  isPlot : (back stage).isPlot = stage.isPlot

theorem ReadAs.self {defaultBins : Nat} {stage : Stage} (hbins : stage.BinsFit) :
    ReadAs defaultBins (fun s => s) stage :=
  ⟨fun _ => toStage_ofStage hbins, rfl, rfl⟩

/-- A stack made of stages stands for what they are read as, if they are in place. -/
theorem stages_ofStages {defaultBins stack depth : Nat} {back : Stage → Stage} {p : List Stage}
    (hback : ∀ stage ∈ p, ReadAs defaultBins back stage) :
    Returns (p.map back)
      ((∀ stage ∈ p.drop (1 - depth), stage.isSource = false) ∧
        (∀ stage ∈ p.dropLast, stage.isPlot = false) ∧ ∀ stage ∈ p, stage.WellFormed)
      (stages defaultBins stack depth (chainBelow (stack? (p.map ofStage)))) := by
  induction p generalizing depth with
  | nil => exact Returns.ok.congr (iff_of_true trivial (by simp))
  | cons stage rest ih =>
    obtain ⟨hstage, hrest⟩ := List.forall_mem_cons.mp hback
    have hread (id : String) : Returns (back stage) stage.WellFormed
        (toStage defaultBins { ofStage stage with next := stack? (rest.map ofStage) } id) :=
      hstage.returns id
    intro q
    rw [List.map_cons, List.map_cons, chainBelow_stack?, stages_cons_eq_ok, source_only_head_cons,
      plot_only_last_cons, List.forall_mem_cons, ← hstage.isSource, ← hstage.isPlot]
    constructor
    · rintro ⟨stage', rest', rfl, hstage', hsource, hplot, hrest'⟩
      obtain ⟨rfl, hformed⟩ := (hread _ stage').mp hstage'
      obtain ⟨rfl, hsources, hplots, hformeds⟩ := (ih hrest rest').mp hrest'
      have hlast (h : (back stage).isPlot = true) : rest = [] := List.map_eq_nil_iff.mp (hplot h)
      exact ⟨rfl, ⟨hsource, hsources⟩, ⟨hlast, hplots⟩, hformed, hformeds⟩
    · rintro ⟨rfl, ⟨hsource, hsources⟩, ⟨hplot, hplots⟩, hformed, hformeds⟩
      have hlast (h : (back stage).isPlot = true) : rest.map back = [] := by rw [hplot h]; rfl
      exact ⟨back stage, rest.map back, rfl, (hread _).eq_ok hformed, hsource, hlast,
        (ih hrest).eq_ok ⟨hsources, hplots, hformeds⟩⟩

/-- The stack of a pipeline that starts with a source comes back if and only if the pipeline is
well-formed. -/
theorem stages_ofPipeline {defaultBins stack : Nat} {back : Stage → Stage} {stage : Stage}
    {rest : List Stage} {head : Block} (hsource : stage.isSource = true)
    (hback : ∀ s ∈ stage :: rest, ReadAs defaultBins back s)
    (hhead : stack? ((stage :: rest).map ofStage) = some head) :
    Returns ((stage :: rest).map back) (Pipeline.WellFormed (stage :: rest))
      (stages defaultBins stack 0 head.chain) := by
  have hchain : head.chain = chainBelow (stack? ((stage :: rest).map ofStage)) := by
    rw [hhead, chainBelow]
  rw [hchain]
  refine (stages_ofStages hback).congr ?_
  rw [Pipeline.wellFormed_iff]
  exact ⟨fun h => ⟨hsource, h⟩, fun h => h.2⟩

end Stages

end Block

theorem Stage.role_ofStage (stage : Stage) :
    (Kind.ofName (Block.ofStage stage).kind).role
      = if stage.isSource then .source else .stage := by
  cases stage with
  | visualize plot => cases plot <;> rfl
  | load s | select s | filter s | mutate s t | group s | summarize s | notify s | join s t u v =>
    rfl

section Equality

theorem Value.beq_self {v : Value} (h : v.IsLiteral) : (v == v) = true := by
  cases v with
  | float x => exact Binary64.beq_self h
  | missing => rfl
  | bool b => exact beq_self_eq_true b
  | int n => exact beq_self_eq_true n
  | text s => exact beq_self_eq_true s

theorem Expr.beq_self {e : Expr} (h : e.WellFormed) : (e == e) = true := by
  induction e with
  | literal v => exact Value.beq_self h
  | column name => exact beq_self_eq_true name
  | compare op left right ihl ihr | arithmetic op left right ihl ihr =>
    change (op == op && (left == left && right == right)) = true
    rw [ihl h.1, ihr h.2, beq_self_eq_true]
    rfl
  | aggregate f name => exact h.elim

theorem Expr.beq_self_aggregate {e : Expr} (h : e.WellFormedAggregate) : (e == e) = true := by
  cases e with
  | aggregate f name =>
    change (f == f && name == name) = true
    rw [beq_self_eq_true, beq_self_eq_true]
    rfl
  | literal v | column name | compare op left right | arithmetic op left right => exact h.elim

theorem beq_self_of_forall {α : Type} [BEq α] {l : List α} (h : ∀ a ∈ l, (a == a) = true) :
    (l == l) = true := by
  induction l with
  | nil => rfl
  | cons a rest ih =>
    obtain ⟨ha, hrest⟩ := List.forall_mem_cons.mp h
    rw [List.cons_beq_cons, ha, ih hrest]
    rfl

theorem Stage.beq_self {stage : Stage} (h : stage.WellFormed) : (stage == stage) = true := by
  cases stage with
  | load name | group name | notify name => exact beq_self_eq_true name
  | select columns => exact beq_self_eq_true columns
  | filter predicate => exact Expr.beq_self h
  | mutate column value =>
    change (column == column && value == value) = true
    rw [beq_self_eq_true, Expr.beq_self h.2]
    rfl
  | summarize aggregates => exact beq_self_of_forall fun e he => Expr.beq_self_aggregate (h.2 e he)
  | join a b c d =>
    change (a == a && (b == b && (c == c && d == d))) = true
    simp only [beq_self_eq_true, Bool.and_self]
  | visualize plot =>
    cases plot with
    | histogram column bins =>
      change (column == column && bins == bins) = true
      simp only [beq_self_eq_true, Bool.and_self]
    | bar x y =>
      change (x == x && y == y) = true
      simp only [beq_self_eq_true, Bool.and_self]
    | scatter x y color =>
      change (x == x && (y == y && color == color)) = true
      simp only [beq_self_eq_true, Bool.and_self]

theorem Program.WellFormed.beq_self {p : Program} (h : p.WellFormed) : (p == p) = true :=
  beq_self_of_forall fun pipeline hpipeline => beq_self_of_forall fun stage hstage =>
    Stage.beq_self ((h pipeline hpipeline).stages stage hstage)

end Equality

namespace Workspace

variable {defaultBins stack : Nat} {p : Program} {c : Compilation}

theorem heads_ofProgram_nil (rest : Program) :
    (ofProgram ([] :: rest)).heads = (ofProgram rest).heads := rfl

theorem heads_ofProgram_cons (stage : Stage) (below : List Stage) (rest : Program) :
    (ofProgram ((stage :: below) :: rest)).heads
      = { Block.ofStage stage with next := Block.stack? (below.map Block.ofStage) }
        :: (ofProgram rest).heads := rfl

theorem length_le_of_compileStacks {heads : List Block}
    (h : compileStacks defaultBins stack heads = .ok c) : c.program.length ≤ heads.length := by
  induction heads generalizing stack c with
  | nil =>
    cases h
    exact Nat.le_refl 0
  | cons head rest ih =>
    obtain ⟨c', hc', ⟨pipeline, -, -, rfl⟩ | ⟨-, rfl⟩⟩ := compileStacks_cons_eq_ok.mp h
    · exact Nat.succ_le_succ (ih hc')
    · exact Nat.le_succ_of_le (ih (c := c') hc')

/-- The stacks of a well-formed program are read as what its stages are read as. -/
theorem compileStacks_of_readAs {back : Stage → Stage}
    (hback : ∀ pipeline ∈ p, ∀ stage ∈ pipeline, Block.ReadAs defaultBins back stage)
    (h : p.WellFormed) :
    compileStacks defaultBins stack (ofProgram p).heads
      = .ok { program := p.map (·.map back), strayCount := 0 } := by
  induction p generalizing stack with
  | nil => rfl
  | cons pipeline rest ih =>
    obtain ⟨hpipeline, hrest⟩ := List.forall_mem_cons.mp h
    obtain ⟨hread, hrestRead⟩ := List.forall_mem_cons.mp hback
    cases pipeline with
    | nil => exact absurd hpipeline.source_head (by decide)
    | cons stage below =>
      have hsource : stage.isSource = true := hpipeline.source_head
      have hrole := stage.role_ofStage
      rw [if_pos hsource] at hrole
      rw [heads_ofProgram_cons, compileStacks_cons_eq_ok]
      refine ⟨_, ih hrestRead hrest, .inl ⟨(stage :: below).map back, hrole, ?_, rfl⟩⟩
      exact (Block.stages_ofPipeline hsource hread rfl).eq_ok hpipeline

theorem compileStacks_of_wellFormed (hbins : p.BinsFit) (h : p.WellFormed) :
    compileStacks defaultBins stack (ofProgram p).heads
      = .ok { program := p, strayCount := 0 } := by
  have hself : compileStacks defaultBins stack (ofProgram p).heads
      = .ok { program := p.map (·.map fun stage => stage), strayCount := 0 } :=
    compileStacks_of_readAs
      (fun pipeline hpipeline stage hstage => .self (hbins pipeline hpipeline stage hstage)) h
  simpa only [List.map_id'] using hself

/-- A program that comes back in its full length, with no stack left over, is well-formed and comes
back as it is. -/
theorem wellFormed_of_compileStacks (hbins : p.BinsFit)
    (h : compileStacks defaultBins stack (ofProgram p).heads = .ok c) (hstray : c.strayCount = 0)
    (hlength : c.program.length = p.length) : c.program = p ∧ p.WellFormed := by
  induction p generalizing stack c with
  | nil =>
    cases h
    exact ⟨rfl, nofun⟩
  | cons pipeline rest ih =>
    obtain ⟨hfit, hrestFit⟩ := List.forall_mem_cons.mp hbins
    cases pipeline with
    | nil =>
      have hle := length_le_of_compileStacks h
      have hheads : (ofProgram rest).heads.length ≤ (rest.map (·.map Block.ofStage)).length :=
        List.length_filterMap_le ..
      rw [heads_ofProgram_nil, hlength, List.length_cons] at hle
      rw [List.length_map] at hheads
      omega
    | cons stage below =>
      rw [heads_ofProgram_cons] at h
      obtain ⟨c', hc', ⟨pipeline, hrole, hpipeline, rfl⟩ | ⟨-, rfl⟩⟩ :=
        compileStacks_cons_eq_ok.mp h
      · have hsource : stage.isSource = true := by
          by_cases hsource : stage.isSource = true
          · exact hsource
          · have hstage := stage.role_ofStage
            rw [if_neg hsource] at hstage
            exact absurd (hrole.symm.trans hstage) (by decide)
        have hself : ∀ s ∈ stage :: below, Block.ReadAs defaultBins (fun s => s) s :=
          fun s hs => .self (hfit s hs)
        obtain ⟨hmap, hformed⟩ := (Block.stages_ofPipeline hsource hself rfl pipeline).mp hpipeline
        obtain rfl := hmap.trans (List.map_id' _)
        obtain ⟨hrest, hrestFormed⟩ := ih hrestFit hc' hstray (Nat.succ.inj hlength)
        exact ⟨congrArg _ hrest, List.forall_mem_cons.mpr ⟨hformed, hrestFormed⟩⟩
      · exact absurd hstray (Nat.succ_ne_zero _)

/-- A program comes back from its workspace if and only if it is well-formed: as itself, and as a
program that is equal to it where doubles are compared as numbers. -/
theorem compile_ofProgram_iff (p : Program) (hbins : p.BinsFit) :
    ((ofProgram p).compile standardBins = .ok { program := p, strayCount := 0 } ↔ p.WellFormed) ∧
    ((∃ c, (ofProgram p).compile standardBins = .ok c ∧ (c.program == p) = true ∧
      c.strayCount = 0) ↔ p.WellFormed) := by
  have hback (h : p.WellFormed) : (ofProgram p).compile standardBins
      = .ok { program := p, strayCount := 0 } := compileStacks_of_wellFormed hbins h
  refine ⟨⟨fun h => ?_, hback⟩, ⟨fun ⟨c, hc, hequal, hstray⟩ => ?_, fun h => ?_⟩⟩
  · exact (wellFormed_of_compileStacks hbins h rfl rfl).2
  · exact (wellFormed_of_compileStacks hbins hc hstray (List.length_eq_of_beq hequal)).2
  · exact ⟨_, hback h, h.beq_self, rfl⟩

/-- The ages above thirty, shown in five bins. -/
def agesOverThirty : Program :=
  [[.load "people", .filter (.compare .gt (.column "age") (.literal (.int 30))),
    .visualize (.histogram "age" 5)]]

theorem compile_agesOverThirty :
    agesOverThirty.BinsFit ∧ (ofProgram agesOverThirty).compile standardBins
      = .ok { program := agesOverThirty, strayCount := 0 } :=
  ⟨by decide, (compile_ofProgram_iff agesOverThirty (by decide)).1.mpr (by decide)⟩

end Workspace

end TablePipeline
