import TablePipeline.Binary64.Literal
import TablePipeline.Program
import TablePipeline.Text.Blank
import TablePipeline.Workspace
import TablePipeline.Workspace.Kind
/-!
# Programs out of workspaces

Every stack that starts with a source becomes a pipeline, the blocks of the stack its stages, and
the blocks plugged into them expressions. A stack that starts with another block is stray: it is
counted and otherwise left alone. The first fault, read in order, is reported with the block that
has it. A block without a name is called by its place.
-/

namespace TablePipeline

/-- A result, or a block with a fault. -/
abbrev Compiled (α : Type) := Except CompileError α

/-- Reports a fault of a block. -/
def faulty {α : Type} (id : String) (fault : Fault) : Compiled α := .error { block := id, fault }

/-- Reports a type that cannot be used. -/
def unknownKind {α : Type} (id kind : String) : Compiled α :=
  faulty id (if kind = "" then .missingField "type" else .unknownKind kind)

namespace Block

/-- The name of a block, or the given one if it has none. -/
def nameOr (b : Block) (place : String) : String := b.id.getD place

/-- What a block is called that is plugged into a field. -/
def nameIn (b : Block) (parent field : String) : String := b.nameOr (parent ++ "/" ++ field)

/-- What a block of a stack is called. -/
def nameAt (b : Block) (stack depth : Nat) : String :=
  b.nameOr ("#" ++ toString stack ++ "." ++ toString depth)

/-- The content of a field that has to be there. -/
def required (b : Block) (id field : String) : Compiled (Field Block) :=
  match b.fields.lookup field with
  | some f => .ok f
  | none => faulty id (.missingField field)

/-- A field holds something that it should not hold. -/
def wrongField {α : Type} (id field expected : String) (found : Field Block) : Compiled α :=
  faulty id (.wrongField field expected found.describe)

/-- The text of a field, which must not be empty. -/
def textField (b : Block) (id field : String) : Compiled String := do
  match ← b.required id field with
  | .text s => if s = "" then faulty id (.emptyField field) else return s
  | f => wrongField id field "text" f

/-- The column that a column block names. -/
def columnName (b : Block) (id : String) : Compiled String :=
  if b.kind = "" then unknownKind id b.kind
  else if Kind.ofName b.kind = .column then b.textField id "TEXT"
  else faulty id (.notColumnBlock b.kind)

/-- The column that the content of a field names, itself or with a block. -/
def columnOf (id field : String) : Field Block → Compiled String
  | .text s => if s = "" then wrongField id field "a column" (.text s) else .ok s
  | .block inner => inner.columnName (inner.nameIn id field)
  | f => wrongField id field "a column" f

/-- The column that a field names. -/
def columnField (b : Block) (id field : String) : Compiled String := do
  columnOf id field (← b.required id field)

/-- The columns that a field lists. -/
def columnsField (b : Block) (id field : String) : Compiled NameSet := do
  let names ← match ← b.required id field with
    | .blocks inners => inners.mapM fun inner => inner.columnName (inner.nameIn id field)
    | f => do pure [← columnOf id field f]
  if names.isEmpty then faulty id .noColumns else return .ofNames names

/-- Reads a whole number with an optional sign. -/
def parseInteger? (cs : List Char) : Option Int :=
  let (negative, digits) := Binary64.splitSign cs
  if digits.isEmpty ∨ ¬ digits.all Char.isDigit then none
  else some (if negative then -(Binary64.natOfDigits 0 digits : Int)
    else Binary64.natOfDigits 0 digits)

/-- The number that a text spells out: an integer if it fits in 64 bits, else a finite double. -/
def numberOfText? (s : String) : Option Value :=
  let cs := Text.trim s.toList
  match parseInteger? cs >>= Word.signed? with
  | some n => some (.int n)
  | none =>
    match Binary64.parse? cs with
    | some x => if Binary64.isFinite x then some (.float x) else none
    | none => none

/-- The value of a number: an integer if it is held as one in range, else a double. -/
def valueOfNumber (n : Json.Number) : Value :=
  match n.toSigned? with
  | some i => .int i
  | none => .float
      (match n with
      | .unsigned n => Binary64.ofInt n.toNat
      | .signed n => Binary64.ofInt n.toInt
      | .float x => x.toFloat)

/-- The number that the content of a field stands for. -/
def numberOf (id field : String) (f : Field Block) : Compiled Value :=
  match f with
  | .number n => .ok (valueOfNumber n)
  | .text s =>
    match numberOfText? s with
    | some v => .ok v
    | none => wrongField id field "a number" f
  | _ => wrongField id field "a number" f

/-- The operator that the field `OP` names. -/
def operatorField {α : Type} (b : Block) (id : String) (ofCode? : String → Option α) :
    Compiled α := do
  let code ← b.textField id "OP"
  match ofCode? code with
  | some op => return op
  | none => faulty id (.unknownOperator code)

/-- The value of a block that holds a text, which may be empty. -/
def textLiteral (b : Block) (id : String) : Compiled Expr := do
  match ← b.required id "TEXT" with
  | .text s => return .literal (.text s)
  | f => wrongField id "TEXT" "text" f

/-- The value of a block that holds a truth value. -/
def booleanLiteral (b : Block) (id : String) : Compiled Expr := do
  let s ← b.textField id "BOOL"
  if s = "TRUE" then return .literal (.bool true)
  else if s = "FALSE" then return .literal (.bool false)
  else faulty id (.notBoolean s)

mutual

/-- The expression of rows that a block stands for. -/
def rowExpr (id : String) : Block → Compiled Expr
  | ⟨name, kind, fields, next⟩ =>
    let b : Block := ⟨name, kind, fields, next⟩
    match Kind.ofName kind with
    | .aggregate f => faulty id (.aggregateInRow f.code)
    | .number => do return .literal (← numberOf id "NUM" (← b.required id "NUM"))
    | .text => b.textLiteral id
    | .missing => .ok (.literal .missing)
    | .boolean => b.booleanLiteral id
    | .column => do return .column (← b.textField id "TEXT")
    | .compare => do
      let op ← b.operatorField id CompareOp.ofCode?
      return .compare op (← operand id "A" fields) (← operand id "B" fields)
    | .arithmetic => do
      let op ← b.operatorField id ArithmeticOp.ofCode?
      return .arithmetic op (← operand id "A" fields) (← operand id "B" fields)
    | .unknown => unknownKind id kind
    | _ => faulty id (.notExpression kind)

/-- The expression of rows in the first field of the given name. -/
def operand (id field : String) : List (String × Field Block) → Compiled Expr
  | [] => faulty id (.missingOperand field)
  | (name, f) :: rest => if field = name then operandOf id field f else operand id field rest

/-- The expression of rows in the content of a field. -/
def operandOf (id field : String) : Field Block → Compiled Expr
  | .block inner => inner.rowExpr (inner.nameIn id field)
  | f => wrongField id field "an expression block" f

end

/-- The aggregate that a block stands for. -/
def aggregateExpr (id : String) (b : Block) : Compiled Expr :=
  match Kind.ofName b.kind with
  | .aggregate f => do return .aggregate f (← b.columnField id "Column")
  | _ => faulty id (.notAggregate b.kind)

/-- The aggregates that a field lists. -/
def aggregatesField (b : Block) (id field : String) : Compiled (List Expr) := do
  match ← b.required id field with
  | .block inner => return [← inner.aggregateExpr (inner.nameIn id field)]
  | .blocks (inner :: inners) =>
    (inner :: inners).mapM fun inner => inner.aggregateExpr (inner.nameIn id field)
  | f => wrongField id field "aggregate blocks" f

/-- The number that the content of a field gives for the bins of a histogram. -/
def binValue (id : String) : Field Block → Compiled Value
  | .block inner => do
    let innerId := inner.nameIn id "bins"
    match ← inner.rowExpr innerId with
    | .literal v => return v
    | _ => faulty innerId .binCountNotNumber
  | f => numberOf id "bins" f

/-- The count that a value stands for, if it is a whole number from one on. Doubles beyond 64 bits
give the largest count. -/
def count? : Value → Option Nat
  | .int n => if 1 ≤ n.toInt then some n.toInt.toNat else none
  | .float x =>
    match Binary64.toInt? x with
    | some n => if 1 ≤ n then some (min n.toNat 0xffffffffffffffff) else none
    | none => none
  | _ => none

/-- The bins of a histogram. -/
def binCount (id : String) (f : Field Block) : Compiled Nat := do
  match count? (← binValue id f) with
  | some n => return n
  | none => faulty id .binCountNotPositive

/-- The stage that a block stands for. -/
def toStage (defaultBins : Nat) (b : Block) (id : String) : Compiled Stage :=
  match Kind.ofName b.kind with
  | .namedDataset => do return .load (← b.textField id "name")
  | .dataset name => if name = "" then faulty id .unnamedDataset else .ok (.load name)
  | .join => do
    return .join (← b.textField id "leftName") (← b.columnField id "leftColumn")
      (← b.textField id "rightName") (← b.columnField id "rightColumn")
  | .select => do return .select (← b.columnsField id "Column")
  | .filter => do return .filter (← operand id "Column" b.fields)
  | .mutate => do
    return .mutate (← b.textField id "newCol") (← operand id "Column" b.fields)
  | .group => do return .group (← b.columnField id "Column")
  | .summarize => do return .summarize (← b.aggregatesField id "Column")
  | .notify => do return .notify (← b.textField id "name")
  | .histogram => do
    let column ← b.columnField id "Column"
    let bins ← match b.fields.lookup "bins" with
      | none => pure defaultBins
      | some f => binCount id f
    return .visualize (.histogram column bins)
  | .bar => do
    return .visualize (.bar (← b.columnField id "X_axis") (← b.columnField id "Y_axis"))
  | .scatter => do
    let x ← b.columnField id "X_axis"
    let y ← b.columnField id "Y_axis"
    let color ← match b.fields.lookup "color" with
      | none => pure none
      | some f => do pure (some (← columnOf id "color" f))
    return .visualize (.scatter x y color)
  | .unknown => unknownKind id b.kind
  | _ => faulty id (.notStage b.kind)

/-- The stages of the blocks of a stack, from the given depth on. -/
def stages (defaultBins stack : Nat) : Nat → List Block → Compiled (List Stage)
  | _, [] => .ok []
  | depth, b :: below => do
    let id := b.nameAt stack depth
    let stage ← b.toStage defaultBins id
    if 0 < depth && stage.isSource then faulty id (.sourceNotFirst b.kind)
    else if stage.isPlot && !below.isEmpty then faulty id .plotNotLast
    else return stage :: (← stages defaultBins stack (depth + 1) below)

end Block

/-- A program, and how many stacks are no part of it. -/
structure Compilation where
  program : Program
  strayCount : Nat
deriving BEq, DecidableEq

namespace Workspace

/-- The program of some stacks, counted from the given one. -/
def compileStacks (defaultBins : Nat) : Nat → List Block → Compiled Compilation
  | _, [] => .ok { program := [], strayCount := 0 }
  | stack, head :: rest =>
    match Role.ofName head.kind with
    | .source => do
      let pipeline ← Block.stages defaultBins stack 0 head.chain
      let c ← compileStacks defaultBins (stack + 1) rest
      return { c with program := pipeline :: c.program }
    | .stage | .expression => do
      let c ← compileStacks defaultBins (stack + 1) rest
      return { c with strayCount := c.strayCount + 1 }
    | .unknown => unknownKind (head.nameAt stack 0) head.kind

/-- The bins of a histogram where neither its block nor the settings say how many. -/
def standardBins : Nat := 10

/-- The program of a workspace. Histograms have at least one bin. -/
def compile (defaultBins : Nat) (w : Workspace) : Compiled Compilation :=
  compileStacks (max 1 defaultBins) 0 w.heads

end Workspace

end TablePipeline
