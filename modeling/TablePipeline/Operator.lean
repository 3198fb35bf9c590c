/-!
# Operators

The comparisons, the arithmetic operators and the aggregate functions, each with the code that it
has in a block. `ofCode?` reads back exactly what `code` writes.
-/

namespace TablePipeline

/-- Comparisons of two values. -/
inductive CompareOp
  | eq | neq | gt | gte | lt | lte
deriving DecidableEq, Repr

/-- Arithmetic on two numbers. -/
inductive ArithmeticOp
  | add | sub | mul | div | mod | exp
deriving DecidableEq, Repr

/-- Functions of a whole column. -/
inductive AggregateFn
  | sum | mean | count | min | max
deriving DecidableEq, Repr

namespace CompareOp

/-- All comparisons. -/
def all : List CompareOp := [.eq, .neq, .gt, .gte, .lt, .lte]

/-- The code of a comparison. -/
def code : CompareOp → String
  | .eq => "EQ"
  | .neq => "NEQ"
  | .gt => "GT"
  | .gte => "GTE"
  | .lt => "LT"
  | .lte => "LTE"

/-- The comparison of a code. -/
def ofCode? (code : String) : Option CompareOp := all.find? (·.code = code)

theorem ofCode?_code (op : CompareOp) : ofCode? op.code = some op := by
  cases op <;> rfl

end CompareOp

namespace ArithmeticOp

/-- All arithmetic operators. -/
def all : List ArithmeticOp := [.add, .sub, .mul, .div, .mod, .exp]

/-- The code of an arithmetic operator. -/
def code : ArithmeticOp → String
  | .add => "ADD"
  | .sub => "SUB"
  | .mul => "MUL"
  | .div => "DIV"
  | .mod => "MOD"
  | .exp => "EXP"

/-- The arithmetic operator of a code. -/
def ofCode? (code : String) : Option ArithmeticOp := all.find? (·.code = code)

theorem ofCode?_code (op : ArithmeticOp) : ofCode? op.code = some op := by
  cases op <;> rfl

end ArithmeticOp

namespace AggregateFn

/-- All aggregate functions. -/
def all : List AggregateFn := [.sum, .mean, .count, .min, .max]

/-- The code of an aggregate function. -/
def code : AggregateFn → String
  | .sum => "sum"
  | .mean => "mean"
  | .count => "count"
  | .min => "min"
  | .max => "max"

/-- The aggregate function of a code. -/
def ofCode? (code : String) : Option AggregateFn := all.find? (·.code = code)

theorem ofCode?_code (f : AggregateFn) : ofCode? f.code = some f := by
  cases f <;> rfl

end AggregateFn

end TablePipeline
