import TablePipeline.Power
/-!
# Binary floating point numbers, exactly

A double stands for `± m · 2^q`. This module reads that off the bits, orders doubles by their
bits, rounds a quotient of naturals to the nearest double, and takes the remainder of two doubles,
all in exact arithmetic.
-/

namespace TablePipeline.Binary64

/-- The bits of positive infinity: the largest magnitude that is not NaN. -/
def infinityBits : Nat := 0x7ff0000000000000

/-- The weight of the leading bit of a normal significand, which the bits leave out. -/
def implicitBit : Nat := 0x10000000000000

/-- The sign bit is set; so it is for `-0`. -/
def isNegative (x : Float) : Bool := 0x8000000000000000 ≤ x.toBits.toNat

/-- The bits without the sign. Among numbers of one sign they grow with the absolute value. -/
def magnitude (x : Float) : Nat := x.toBits.toNat % 0x8000000000000000

/-- The double is a number, neither infinite nor NaN. -/
def isFinite (x : Float) : Bool := magnitude x < infinityBits

/-- A finite double. -/
structure Finite where
  toFloat : Float
  finite : isFinite toFloat = true
deriving DecidableEq

instance : Coe Finite Float := ⟨Finite.toFloat⟩

/-- A double as a finite one, if it is finite. -/
def Finite.ofFloat? (x : Float) : Option Finite :=
  if h : isFinite x = true then some ⟨x, h⟩ else none

/-- The double is no number. -/
def isNaN (x : Float) : Bool := infinityBits < magnitude x

/-- The double of a sign and a magnitude. -/
def ofMagnitude (negative : Bool) (bits : Nat) : Float :=
  Float.ofBits (UInt64.ofNat (if negative then 0x8000000000000000 + bits else bits))

/-- The place of a double in the order of the numbers. Both zeros share one place and NaN has
none. -/
def rank? (x : Float) : Option Int :=
  if isNaN x then none else some (if isNegative x then -(magnitude x : Int) else magnitude x)

/-- Compares two doubles as numbers. NaN compares with nothing. -/
def compare? (x y : Float) : Option Ordering := do
  let a ← rank? x
  let b ← rank? y
  return Ord.compare a b

/-- A finite double, as a sign, a significand and an exponent of two. -/
structure Scaled where
  negative : Bool
  significand : Nat
  exponent : Int
deriving DecidableEq, Repr

/-- Reads a finite double off its bits. -/
def Scaled.ofFloat? (x : Float) : Option Scaled :=
  if isFinite x then
    let field : Nat := magnitude x / implicitBit
    let fraction : Nat := magnitude x % implicitBit
    if field = 0 then some ⟨isNegative x, fraction, -1074⟩
    else some ⟨isNegative x, implicitBit + fraction, (field : Int) - 1075⟩
  else none

/-- The quotient rounded to the nearest natural, a half to the even one. -/
def roundHalfEven (n d : Nat) : Nat :=
  let q := n / d
  let twice := 2 * (n % d)
  if twice < d then q
  else if d < twice then q + 1
  else if q % 2 = 0 then q else q + 1

/-- The greatest `e` with `2^e ≤ n / d`, for positive `n` and `d`. -/
def log2Quotient (n d : Nat) : Int :=
  let e : Int := (n.log2 : Int) - d.log2
  if d * twoPow e.toNat ≤ n * twoPow (-e).toNat then e else e - 1

/-- The magnitude of the double nearest to `n / d`, a half to the even significand. -/
def nearestBits (n d : Nat) : Nat :=
  if n = 0 then 0
  else
    let q : Int := max (-1074) (log2Quotient n d - 52)
    let significand := roundHalfEven (n * twoPow (-q).toNat) (d * twoPow q.toNat)
    min infinityBits ((q + 1074).toNat * implicitBit + significand)

/-- The double nearest to `± n / d`. -/
def nearest (negative : Bool) (n d : Nat) : Float := ofMagnitude negative (nearestBits n d)

/-- The double nearest to an integer. -/
def ofInt (n : Int) : Float := nearest (decide (n < 0)) n.natAbs 1

/-- The integer that a double is equal to, if there is one. -/
def toInt? (x : Float) : Option Int := do
  let s ← Scaled.ofFloat? x
  let unit := twoPow (-s.exponent).toNat
  if s.significand % unit = 0 then
    let n : Nat := s.significand / unit * twoPow s.exponent.toNat
    return if s.negative then -(n : Int) else n
  else none

/-- What is left of `x` after taking away `y` as often as it fits, with the sign of `x`. -/
def remainder (x y : Float) : Float :=
  match Scaled.ofFloat? x, Scaled.ofFloat? y with
  | some a, some b =>
    if b.significand = 0 then 0.0 / 0.0
    else
      let e := min a.exponent b.exponent
      let r := (a.significand * twoPow (a.exponent - e).toNat)
        % (b.significand * twoPow (b.exponent - e).toNat)
      nearest a.negative (r * twoPow e.toNat) (twoPow (-e).toNat)
  | some _, none => if isNaN y then y else x
  | none, _ => 0.0 / 0.0

end TablePipeline.Binary64
