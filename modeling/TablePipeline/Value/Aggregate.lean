import TablePipeline.Operator
import TablePipeline.Value
/-!
# Functions of a column

Every function skips missing values. A sum is an integer while all values are and the running total
fits in 64 bits, the least and the greatest value are the first of their kind in the column.
-/

namespace TablePipeline

namespace AggregateFn

/-- A running sum: the exact total, while there is one, beside the total as doubles. -/
structure Total where
  exact : Option Int64 := some 0
  approximate : Float := 0.0

/-- Adds a value to a running sum. -/
def Total.add (context : String) (t : Total) : Value → Except Error Total
  | .int n => .ok
      { exact := t.exact.bind fun total => Word.signed? (total.toInt + n.toInt)
        approximate := t.approximate + Binary64.ofInt n.toInt }
  | .float x => .ok { exact := none, approximate := t.approximate + x }
  | v => .error (.typeMismatch context "number" v.typeName)

/-- The sum of values that are not missing. -/
def sumOf (context : String) (values : List Value) : Except Error Value := do
  let total ← values.foldlM (Total.add context) {}
  match total.exact with
  | some n => return .int n
  | none => return .float total.approximate

/-- The mean of values that are not missing, zero if there are none. -/
def meanOf (context : String) (values : List Value) : Except Error Value :=
  if values.isEmpty then .ok (.float 0.0)
  else do
    let total := (← sumOf context values).toFloat?.getD 0.0
    return .float (total / Binary64.ofInt values.length)

/-- Keeps the better one of two values, the earlier one unless the later one is strictly better. -/
def better (context : String) (keep : Ordering) (best : Value) (v : Value) : Except Error Value := do
  if (← v.order? context best) = some keep then return v else return best

/-- The least or the greatest of values that are not missing. -/
def extremeOf (context : String) (keep : Ordering) : List Value → Except Error Value
  | [] => .ok .missing
  | first :: rest => rest.foldlM (better context keep) first

/-- Applies an aggregate function to the values of a column. -/
def apply (f : AggregateFn) (values : List Value) : Except Error Value :=
  let present := values.filter (!·.isMissing)
  match f with
  | .count => .ok (.int (Int64.ofNat present.length))
  | .sum => sumOf f.code present
  | .mean => meanOf f.code present
  | .min => extremeOf f.code .lt present
  | .max => extremeOf f.code .gt present

end AggregateFn

end TablePipeline
