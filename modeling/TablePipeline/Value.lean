import TablePipeline.Binary64.Shortest
import TablePipeline.Error
import TablePipeline.Json
import TablePipeline.Word
/-!
# Cells

A `Value` is what a cell of a table holds. Integers and doubles are both numbers and compare with
each other. A missing value compares with nothing, and matches only another missing value as a key.
-/

namespace TablePipeline

/-- The content of a cell. `==` compares doubles as numbers, so that NaN differs from itself. -/
inductive Value
  | missing
  | bool (b : Bool)
  | int (n : Int64)
  | float (x : Float)
  | text (s : String)
deriving BEq, DecidableEq

instance : Inhabited Value := ⟨.missing⟩

namespace Value

/-- The type of a value in words. -/
def typeName : Value → String
  | .missing => "missing"
  | .bool _ => "boolean"
  | .int _ | .float _ => "number"
  | .text _ => "string"

/-- There is no value. -/
def isMissing : Value → Bool
  | .missing => true
  | _ => false

/-- A number as a double. Integers are rounded to the nearest one. -/
def toFloat? : Value → Option Float
  | .int n => some (Binary64.ofInt n.toInt)
  | .float x => some x
  | _ => none

/-- The value counts as true: it is neither missing, false, zero nor the empty text. -/
def isTruthy : Value → Bool
  | .missing => false
  | .bool b => b
  | .int n => n ≠ 0
  | .float x => x != 0.0
  | .text s => s ≠ ""

/-- Compares two values. Integers compare exactly, an integer with a double as doubles. There is no
order if one is missing or NaN, and an error if the types differ. -/
def order? (context : String) : Value → Value → Except Error (Option Ordering)
  | .missing, _ => .ok none
  | _, .missing => .ok none
  | .int a, .int b => .ok (some (compare a.toInt b.toInt))
  | .bool a, .bool b => .ok (some (compare a b))
  | .text a, .text b => .ok (some (compare a b))
  | a, b =>
    match a.toFloat?, b.toFloat? with
    | some x, some y => .ok (Binary64.compare? x y)
    | _, _ => .error (.typeMismatch context a.typeName b.typeName)

/-- Two values are the same key: both are missing, or they compare as equal. -/
def sameKey (a b : Value) : Bool :=
  if a.isMissing || b.isMissing then a.isMissing && b.isMissing
  else
    match a.order? "key" b with
    | .ok (some .eq) => true
    | _ => false

/-- The value of a JSON number: an integer if it is equal to one that fits in 64 bits. The double
`-2^63` stays a double. -/
def ofNumber (n : Json.Number) : Value :=
  match n.toSigned? with
  | some i => .int i
  | none =>
    let x := match n with
      | .unsigned n => Binary64.ofInt n.toNat
      | .signed n => Binary64.ofInt n.toInt
      | .float x => x.toFloat
    match Binary64.toInt? x with
    | some i => if i.natAbs < 0x8000000000000000 then .int (Int64.ofInt i) else .float x
    | none => .float x

/-- The value of a JSON scalar. -/
def ofJson : Json → Except Error Value
  | .null => .ok .missing
  | .bool b => .ok (.bool b)
  | .number n => .ok (ofNumber n)
  | .string s => .ok (.text s)
  | .array _ | .object _ => .error (.invalidDataset .nestedCell)

/-- The value as JSON. Infinities and NaN become null. -/
def toJson : Value → Json
  | .missing => .null
  | .bool b => .bool b
  | .int n => .number (.ofSigned n)
  | .float x => .ofFloat x
  | .text s => .string s

/-- Doubles are shown with the fewest digits that read back, without an exponent, and whole ones
without a point. -/
def floatText : Binary64.FloatText where
  tie := .up
  positional := none
  pointZero := false
  infinity := "inf"
  negativeInfinity := "-inf"
  nan := "NaN"

/-- The value as it is shown to people. -/
def display : Value → String
  | .missing => "NA"
  | .bool b => if b then "true" else "false"
  | .int n => toString n.toInt
  | .float x => floatText.write x
  | .text s => s

end Value

end TablePipeline
