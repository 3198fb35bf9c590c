/-!
# What can go wrong

`Fault` lists what may be wrong with a block, `Error` everything that can stop a program. Both keep
causes. `Fault.reason` and `Error.message` put them into words.
-/

namespace TablePipeline

/-- What is wrong with a block. -/
inductive Fault
  | missingField (field : String)
  | missingOperand (field : String)
  | emptyField (field : String)
  | wrongField (field expected found : String)
  | unknownKind (kind : String)
  | notColumnBlock (kind : String)
  | noColumns
  | binCountNotNumber
  | binCountNotPositive
  | aggregateInRow (function : String)
  | notAggregate (kind : String)
  | notBoolean (text : String)
  | unknownOperator (code : String)
  | notExpression (kind : String)
  | notStage (kind : String)
  | unnamedDataset
  | sourceNotFirst (kind : String)
  | plotNotLast
deriving DecidableEq, Repr

/-- The fault in words. -/
def Fault.reason : Fault → String
  | .missingField field => s!"missing field '{field}'"
  | .missingOperand field => s!"missing operand '{field}'"
  | .emptyField field => s!"field '{field}' is empty"
  | .wrongField field expected found => s!"field '{field}' expects {expected}, found {found}"
  | .unknownKind kind => s!"unknown block type '{kind}'"
  | .notColumnBlock kind => s!"expected a column block, found '{kind}'"
  | .noColumns => "select needs at least one column"
  | .binCountNotNumber => "bin count must be a number"
  | .binCountNotPositive => "bin count must be a positive whole number"
  | .aggregateInRow function => s!"aggregate '{function}' can only be used in a summarize block"
  | .notAggregate kind => s!"summarize expects an aggregate block, found '{kind}'"
  | .notBoolean text => s!"boolean must be TRUE or FALSE, found '{text}'"
  | .unknownOperator code => s!"unknown operator '{code}'"
  | .notExpression kind => s!"'{kind}' cannot be used as an expression"
  | .notStage kind => s!"'{kind}' is an expression block, not a stage"
  | .unnamedDataset => "dataset block has no name"
  | .sourceNotFirst kind => s!"'{kind}' must start its own stack"
  | .plotNotLast => "plot blocks must be the last block of their stack"

/-- A fault and the block that has it. -/
structure CompileError where
  block : String
  fault : Fault
deriving DecidableEq, Repr

/-- Names a block in front of what is said about it. -/
def aboutBlock (block reason : String) : String := s!"block '{block}': {reason}"

/-- Why a JSON value is no dataset. -/
inductive DatasetFault
  | notArray
  | notObject (row : Nat)
  | nestedCell
deriving DecidableEq, Repr

/-- The fault in words. -/
def DatasetFault.reason : DatasetFault → String
  | .notArray => "dataset must be an array of objects"
  | .notObject row => s!"row {row} is not an object"
  | .nestedCell => "cells must be scalars, found nested value"

/-- Why a program does not run to its end. -/
inductive Error
  | compile (cause : CompileError)
  | unknownDataset (name : String)
  | unknownColumn (column : String)
  /-- Types that do not go together, or the kind that was expected and the kind found. -/
  | typeMismatch (context left right : String)
  | unregisteredName (name : String)
  | divisionByZero
  /-- A row without the columns of the first one. -/
  | schemaMismatch (row : Nat) (expected found : List String)
  | invalidDataset (fault : DatasetFault)
deriving DecidableEq, Repr

namespace Error

/-- A short fixed word for the kind of error. -/
def code : Error → String
  | .compile _ => "CompileError"
  | .unknownDataset _ => "UnknownDataset"
  | .unknownColumn _ => "UnknownColumn"
  | .typeMismatch .. => "TypeMismatch"
  | .unregisteredName _ => "UnregisteredName"
  | .divisionByZero => "DivisionByZero"
  | .schemaMismatch .. => "SchemaMismatch"
  | .invalidDataset _ => "InvalidDataset"

/-- A list of columns in words. -/
def listColumns (columns : List String) : String := ", ".intercalate columns

/-- The error in words. -/
def message : Error → String
  | .compile cause => aboutBlock cause.block cause.fault.reason
  | .unknownDataset name => s!"unknown dataset '{name}'"
  | .unknownColumn column => s!"unknown column '{column}'"
  | .typeMismatch context left right => s!"{context}: cannot combine {left} with {right}"
  | .unregisteredName name => s!"no table registered under '{name}'"
  | .divisionByZero => "division by zero"
  | .schemaMismatch row expected found =>
    s!"row {row} has columns [" ++ listColumns found ++ "], expected ["
      ++ listColumns expected ++ "]"
  | .invalidDataset fault => "invalid dataset: " ++ fault.reason

/-- Puts the code of an error in front of its message. -/
def withCode (code message : String) : String := s!"[{code}] {message}"

/-- The error as it is logged. -/
def logText (e : Error) : String := withCode e.code e.message

end Error

end TablePipeline
