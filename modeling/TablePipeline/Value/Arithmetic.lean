import TablePipeline.Operator
import TablePipeline.Value
/-!
# Comparing and computing with cells

A comparison is decided by the order of the two values. Arithmetic on integers is exact where the
result is an integer that fits in 64 bits, and is done on doubles otherwise.
-/

namespace TablePipeline

/-- The order of two values passes a comparison. -/
def CompareOp.holds (op : CompareOp) (ord : Ordering) : Bool :=
  match op with
  | .eq => ord = .eq
  | .neq => ord ≠ .eq
  | .gt => ord = .gt
  | .gte => ord ≠ .lt
  | .lt => ord = .lt
  | .lte => ord ≠ .gt

/-- Compares two values. Two missing values are equal, a missing value and NaN differ from all
else, and no order holds of them. -/
def CompareOp.apply (op : CompareOp) (a b : Value) : Except Error Bool :=
  if a.isMissing || b.isMissing then
    let both := a.isMissing && b.isMissing
    match op with
    | .eq => .ok both
    | .neq => .ok (!both)
    | _ => .ok false
  else do
    match ← a.order? "comparison" b with
    | none => return op = .neq
    | some ord => return op.holds ord

/-- The exact result of an operator on integers, if it has one. Division is never exact. -/
def ArithmeticOp.exact? (op : ArithmeticOp) (a b : Int) : Option Int :=
  match op with
  | .add => some (a + b)
  | .sub => some (a - b)
  | .mul => some (a * b)
  | .mod => some (a.tmod b)
  | .div | .exp => none

/-- The result of an operator on doubles. -/
def ArithmeticOp.onFloats (op : ArithmeticOp) (x y : Float) : Float :=
  match op with
  | .add => x + y
  | .sub => x - y
  | .mul => x * y
  | .div => x / y
  | .mod => Binary64.remainder x y
  | .exp => Float.pow x y

/-- The operator divides by its second operand. -/
def ArithmeticOp.divides : ArithmeticOp → Bool
  | .div | .mod => true
  | _ => false

/-- Computes with two numbers as doubles. -/
def ArithmeticOp.applyFloats (op : ArithmeticOp) (a b : Value) : Except Error Value :=
  match a.toFloat?, b.toFloat? with
  | some x, some y =>
    if op.divides && y == 0.0 then .error .divisionByZero else .ok (.float (op.onFloats x y))
  | _, _ => .error (.typeMismatch "arithmetic" a.typeName b.typeName)

/-- Computes with two integers. The remainder of the least integer by `-1` is a double too, as its
quotient does not fit. -/
def ArithmeticOp.applyInts (op : ArithmeticOp) (a b : Int64) : Except Error Value :=
  if op = .mod ∧ b = 0 then .error .divisionByZero
  else if op = .mod ∧ a = Int64.minValue ∧ b = -1 then op.applyFloats (.int a) (.int b)
  else
    match op.exact? a.toInt b.toInt >>= Word.signed? with
    | some n => .ok (.int n)
    | none => op.applyFloats (.int a) (.int b)

/-- Computes with two values. The result is missing if an operand is. -/
def ArithmeticOp.apply (op : ArithmeticOp) (a b : Value) : Except Error Value :=
  if a.isMissing || b.isMissing then .ok .missing
  else
    match a, b with
    | .int a, .int b => op.applyInts a b
    | a, b => op.applyFloats a b

end TablePipeline
