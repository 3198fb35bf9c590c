import TablePipeline.Binary64
/-!
# The fewest digits that read back

`Decimal.shortest` finds the decimal number with the fewest digits that rounds to a given double,
and of those the one nearest to it. A `FloatText` record says how such a number is written.
-/

namespace TablePipeline.Binary64

/-- The number `digits · 10^exponent`. -/
structure Decimal where
  digits : Nat
  exponent : Int
deriving DecidableEq, Repr

/-- Where an exact half between two decimals of equal length goes. -/
inductive Tie
  | up
  | toEven
deriving DecidableEq, Repr

namespace Decimal

/-- The reals that round to one double, and the double itself, over a common denominator. -/
structure Interval where
  low : Nat
  value : Nat
  high : Nat
  denominator : Nat
  /-- The ends round to the double too. -/
  closed : Bool

/-- The interval of `m · 2^q`. Below a power of two the doubles lie twice as close. -/
def Interval.ofScaled (m : Nat) (q : Int) : Interval :=
  let below := if m = implicitBit ∧ -1074 < q then 1 else 2
  let unit := twoPow (q - 2).toNat
  { low := (4 * m - below) * unit
    value := 4 * m * unit
    high := (4 * m + 2) * unit
    denominator := twoPow (2 - q).toNat
    closed := m % 2 = 0 }

/-- The decimal nearest to the value among the multiples of `10^p` in the interval. -/
def Interval.onGrid? (i : Interval) (tie : Tie) (p : Int) : Option Nat :=
  let scale := tenPow (-p).toNat
  let step := i.denominator * tenPow p.toNat
  let below := i.value * scale / step
  let twice := 2 * (i.value * scale % step)
  let fits (n : Nat) : Bool :=
    if i.closed then i.low * scale ≤ n * step && n * step ≤ i.high * scale
    else i.low * scale < n * step && n * step < i.high * scale
  if fits below then
    if fits (below + 1) then
      if twice < step then some below
      else if step < twice then some (below + 1)
      else match tie with
        | .up => some (below + 1)
        | .toEven => some (if below % 2 = 0 then below else below + 1)
    else some below
  else if fits (below + 1) then some (below + 1)
  else none

/-- The number of decimal digits of a natural. -/
def width (n : Nat) : Nat := (Nat.toDigits 10 n).length

/-- The greatest `p` with `10^p ≤ n / d`, for positive `n` and `d`. -/
def log10Quotient (n d : Nat) : Int :=
  if d ≤ n then (width (n / d) : Int) - 1
  else
    let w := width (d / n)
    if d ≤ n * tenPow (w - 1) then 1 - (w : Int) else -(w : Int)

/-- The first grid with a hit, from `10^p` down. Seventeen digits always suffice. -/
def firstHit (i : Interval) (tie : Tie) : Nat → Int → Decimal
  | 0, p => ⟨i.value * tenPow (-p).toNat / (i.denominator * tenPow p.toNat), p⟩
  | more + 1, p =>
    match i.onGrid? tie p with
    | some n => ⟨n, p⟩
    | none => firstHit i tie more (p - 1)

/-- Moves factors of ten from the digits, of which there are at most `n`, into the exponent. -/
def dropZeros : Nat → Decimal → Decimal
  | 0, d => d
  | n + 1, d => if d.digits % 10 = 0 then dropZeros n ⟨d.digits / 10, d.exponent + 1⟩ else d

/-- The shortest decimal that rounds to `m · 2^q`. -/
def shortest (tie : Tie) (m : Nat) (q : Int) : Decimal :=
  if m = 0 then ⟨0, 0⟩
  else
    let i := Interval.ofScaled m q
    dropZeros 17 (firstHit i tie 17 (log10Quotient i.value i.denominator))

/-- The digits as characters. -/
def chars (d : Decimal) : List Char := Nat.toDigits 10 d.digits

/-- The exponent of the first digit. -/
def leading (d : Decimal) : Int := (width d.digits : Int) - 1 + d.exponent

/-- Writes a decimal without an exponent, with a point only where there are places after it. -/
def positional (d : Decimal) : String :=
  let ds := d.chars
  if 0 ≤ d.exponent then String.ofList (ds ++ List.replicate d.exponent.toNat '0')
  else
    let places := (-d.exponent).toNat
    let padded := List.replicate (places + 1 - ds.length) '0' ++ ds
    let whole := padded.take (padded.length - places)
    String.ofList (whole ++ '.' :: padded.drop (padded.length - places))

/-- Writes a decimal with one digit before the point and a signed exponent. -/
def scientific (d : Decimal) : String :=
  let mantissa := match d.chars with
    | [] => []
    | [c] => [c]
    | c :: rest => c :: '.' :: rest
  let e := d.leading
  String.ofList mantissa ++ (if e < 0 then "e-" else "e+") ++ toString e.natAbs

end Decimal

/-- How doubles are written. -/
structure FloatText where
  tie : Tie
  /-- The exponents of the first digit that are written without an exponent, all if absent. -/
  positional : Option (Int × Int)
  /-- Whole numbers written without an exponent end in `.0`. -/
  pointZero : Bool
  infinity : String
  negativeInfinity : String
  nan : String

/-- Writes a double. -/
def FloatText.write (t : FloatText) (x : Float) : String :=
  match Scaled.ofFloat? x with
  | none => if isNaN x then t.nan else if isNegative x then t.negativeInfinity else t.infinity
  | some s =>
    let d := Decimal.shortest t.tie s.significand s.exponent
    let body :=
      if t.positional.all fun (low, high) => low ≤ d.leading ∧ d.leading ≤ high then
        if t.pointZero ∧ 0 ≤ d.exponent then d.positional ++ ".0" else d.positional
      else d.scientific
    if s.negative then "-" ++ body else body

end TablePipeline.Binary64
