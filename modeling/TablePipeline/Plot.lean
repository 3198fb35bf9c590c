import TablePipeline.Table.Dataset
/-!
# Plots

A `Plot` says what to draw of a table. `Plot.spec` checks that it can be drawn and works out the
bins of a histogram. A `PlotSpec` carries its rows with it.
-/

namespace TablePipeline

/-- What to draw of a table. -/
inductive Plot
  | histogram (column : String) (bins : Nat)
  | bar (x y : String)
  | scatter (x y : String) (color : Option String)
deriving BEq, DecidableEq

/-- The least and the greatest number in a column. -/
structure Extent where
  low : Float
  high : Float
deriving DecidableEq

/-- How the columns of a table are drawn. -/
inductive Encoding
  | histogram (column : String) (bins : Nat) (extent : Option Extent) (step : Float)
  | bar (x y : String)
  | scatter (x y : String) (color : Option String)
deriving DecidableEq

/-- A plot with everything that is needed to draw it. -/
structure PlotSpec where
  rows : List Row
  encoding : Encoding
deriving DecidableEq

namespace Extent

/-- The extent with one more number. Of two zeros that differ in sign the later is kept. -/
def extend (e : Option Extent) (x : Float) : Extent :=
  match e with
  | none => { low := x, high := x }
  | some e =>
    { low := if Binary64.compare? e.low x = some .lt then e.low else x
      high := if Binary64.compare? e.high x = some .gt then e.high else x }

/-- The extent with one more cell. Missing values and NaN do not count. -/
def addValue (e : Option Extent) (v : Value) : Except Error (Option Extent) :=
  if v.isMissing then .ok e
  else
    match v.toFloat? with
    | none => .error (.typeMismatch "histogram" "number" v.typeName)
    | some x => .ok (if Binary64.isNaN x then e else some (extend e x))

/-- The extent of some cells, if there is a number among them. -/
def ofValues (values : List Value) : Except Error (Option Extent) := values.foldlM addValue none

/-- The width of one of several bins of equal width. -/
def step (e : Extent) (bins : Nat) : Float := (e.high - e.low) / Binary64.ofInt bins

end Extent

/-- A histogram of a column. -/
def Plot.histogramSpec (t : Table) (column : String) (bins : Nat) : Except Error PlotSpec := do
  if bins = 0 then
    throw (.typeMismatch "histogram" "bin count" "zero")
  t.requireColumn column
  let extent ← Extent.ofValues (← t.cells column)
  let step := match extent with
    | some e => e.step bins
    | none => 0.0
  return { rows := t.rows, encoding := .histogram column bins extent step }

/-- Works out a plot of a table. -/
def Plot.spec (t : Table) : Plot → Except Error PlotSpec
  | .histogram column bins => histogramSpec t column bins
  | .bar x y => do
    t.requireColumn x
    t.requireColumn y
    return { rows := t.rows, encoding := .bar x y }
  | .scatter x y color => do
    t.requireColumn x
    t.requireColumn y
    color.forM t.requireColumn
    return { rows := t.rows, encoding := .scatter x y color }

namespace PlotSpec

/-- A channel that shows a column as numbers or as names. -/
def channel (column kind : String) : Json :=
  .record [("field", .string column), ("type", .string kind)]

/-- An extent as a pair, null if there is none. -/
def extentJson : Option Extent → Json
  | some e => .array [.ofFloat e.low, .ofFloat e.high]
  | none => .null

/-- The mark that stands for a row or a bin. -/
def mark : Encoding → String
  | .histogram .. | .bar .. => "bar"
  | .scatter .. => "point"

/-- The channels of an encoding. -/
def channels : Encoding → Json
  | .histogram column bins extent step => .record
      [("x", .record
        [("field", .string column), ("type", .string "quantitative"),
          ("bin", .record
            [("maxbins", .ofNat bins), ("extent", extentJson extent), ("step", .ofFloat step)])]),
        ("y", .record [("aggregate", .string "count"), ("type", .string "quantitative")])]
  | .bar x y => .record [("x", channel x "nominal"), ("y", channel y "quantitative")]
  | .scatter x y color => .record
      (("x", channel x "quantitative") :: ("y", channel y "quantitative") ::
        (color.map fun c => ("color", channel c "nominal")).toList)

/-- A plot as it is handed on: its data, its mark and its channels. -/
def toJson (p : PlotSpec) : Json :=
  .record
    [("data", .record [("values", Table.rowsToJson p.rows)]),
      ("mark", .string (mark p.encoding)), ("encoding", channels p.encoding)]

end PlotSpec

end TablePipeline
