import TablePipeline.Json
import TablePipeline.Binary64.Literal
/-!
# JSON numerals

A numeral is split into its digits first and turned into a number second. Integers are exact while
they fit in 64 bits. Any other numeral keeps the leading digits that fit in 64 bits and scales them
by one power of ten in floating point, so its last bit may differ from the nearest double.
-/

namespace TablePipeline.Json

open Binary64 (natOfDigits)

/-- A numeral as it is written. Each list holds decimal digits. -/
structure Numeral where
  negative : Bool
  whole : List Char
  /-- The digits after the point, empty if there is no point. -/
  places : List Char
  /-- The sign and the digits after the exponent mark. -/
  exponent : Option (Bool × List Char)

namespace Numeral

/-- Reads the digits after a point, of which there has to be one. -/
def scanPlaces? : List Char → Option (List Char × List Char)
  | '.' :: rest =>
    let digits := rest.takeWhile Char.isDigit
    if digits.isEmpty then none else some (digits, rest.dropWhile Char.isDigit)
  | cs => some ([], cs)

/-- Reads an exponent, if there is an exponent mark. -/
def scanExponent? (cs : List Char) : Option (Option (Bool × List Char) × List Char) :=
  match cs with
  | [] => some (none, [])
  | c :: rest =>
    if c = 'e' ∨ c = 'E' then
      let (negative, rest) := Binary64.splitSign rest
      let digits := rest.takeWhile Char.isDigit
      if digits.isEmpty then none
      else some (some (negative, digits), rest.dropWhile Char.isDigit)
    else some (none, c :: rest)

/-- Reads a numeral and returns what follows it. A whole part of several digits has no leading
zero. -/
def scan? (cs : List Char) : Option (Numeral × List Char) := do
  let (negative, cs) := match cs with
    | '-' :: rest => (true, rest)
    | cs => (false, cs)
  let whole := cs.takeWhile Char.isDigit
  if whole.isEmpty || (whole.head? = some '0' && whole.length ≠ 1) then none
  else
    let (places, rest) ← scanPlaces? (cs.dropWhile Char.isDigit)
    let (exponent, rest) ← scanExponent? rest
    return ({ negative, whole, places, exponent }, rest)

/-- Appends digits to a significand while it fits in 64 bits, and returns the digits left over. -/
def absorb (significand : Nat) : List Char → Nat × List Char
  | [] => (significand, [])
  | c :: rest =>
    let next := natOfDigits significand [c]
    if next < 0x10000000000000000 then absorb next rest else (significand, c :: rest)

/-- Scales a double by `10^exponent`, in steps of at most `10^308`. There is no result if it is too
large. -/
def scale? : Nat → Float → Int → Option Float
  | 0, x, _ => some x
  | steps + 1, x, exponent =>
    if exponent.natAbs ≤ 308 then
      let power := Binary64.nearest false (tenPow exponent.natAbs) 1
      if 0 ≤ exponent then
        let y := x * power
        if Binary64.isFinite y then some y else none
      else some (x / power)
    else if x == 0.0 then some x
    else if 0 ≤ exponent then none
    else scale? steps (x / Binary64.nearest false (tenPow 308) 1) (exponent + 308)

/-- The number `± significand · 10^exponent`. -/
def scaled? (negative : Bool) (significand : Nat) (exponent : Int) : Option Number := do
  let x ← scale? (exponent.natAbs / 308 + 1) (Binary64.nearest false significand 1) exponent
  Number.ofFloat? (if negative then -x else x)

/-- Keeps an exponent within 32 bits. -/
def clamp (exponent : Int) : Int := max (-0x80000000) (min 0x7fffffff exponent)

/-- The integer of a sign and a magnitude. Negative zero and integers below `-2^63` are doubles. -/
def integer (negative : Bool) (n : Nat) : Option Number :=
  if negative then
    if 0 < n ∧ n ≤ 0x8000000000000000 then some (.signed (Int64.ofInt (-n)))
    else Number.ofFloat? (-(Binary64.nearest false n 1))
  else some (.unsigned (UInt64.ofNat n))

/-- The number that a numeral stands for, if it is not too large for a double. -/
def toNumber? (t : Numeral) : Option Number :=
  let (significand, dropped) := absorb 0 t.whole
  let before : Int := dropped.length
  let (full, unread) := absorb significand t.places
  let start : Int := before - ((t.places.length : Int) - unread.length)
  match t.exponent with
  | none =>
    if t.places.isEmpty ∧ dropped.isEmpty then integer t.negative significand
    else scaled? t.negative full start
  | some (down, digits) =>
    let e := natOfDigits 0 digits
    if e < 0x80000000 then
      scaled? t.negative full (clamp (if down then start - e else start + e))
    else if full ≠ 0 ∧ ¬ down then none
    else Number.ofFloat? (Binary64.ofMagnitude t.negative 0)

end Numeral

end TablePipeline.Json
