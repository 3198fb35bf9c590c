import TablePipeline.Binary64
/-!
# Decimal numbers, read to the nearest double

`Binary64.parse?` reads an optional sign, digits with an optional point, and an optional exponent,
and rounds the number they stand for once.
-/

namespace TablePipeline.Binary64

/-- The natural that a list of decimal digits stands for, continuing from `n`. -/
def natOfDigits (n : Nat) (digits : List Char) : Nat :=
  digits.foldl (fun n c => 10 * n + (c.toNat - '0'.toNat)) n

/-- Splits off a sign. The first part tells whether it is a minus. -/
def splitSign : List Char → Bool × List Char
  | '-' :: rest => (true, rest)
  | '+' :: rest => (false, rest)
  | cs => (false, cs)

/-- The number `± digits · 10^exponent`, rounded to the nearest double. Exponents that leave the
range of the doubles are cut off first. -/
def nearestDecimal (negative : Bool) (digits : Nat) (exponent : Int) : Float :=
  let width : Int := (Nat.toDigits 10 digits).length
  if digits = 0 ∨ exponent + width < -400 then ofMagnitude negative 0
  else if 400 < exponent + width then ofMagnitude negative infinityBits
  else nearest negative (digits * tenPow exponent.toNat) (tenPow (-exponent).toNat)

/-- Reads an exponent mark with a signed whole number, to the end. No mark is the exponent 0. -/
def parseExponent? : List Char → Option Int
  | [] => some 0
  | c :: rest =>
    if c = 'e' ∨ c = 'E' then
      let (negative, digits) := splitSign rest
      if digits.isEmpty ∨ ¬ digits.all Char.isDigit then none
      else some (if negative then -(natOfDigits 0 digits : Int) else natOfDigits 0 digits)
    else none

/-- Reads a decimal number to the end of the text. -/
def parse? (text : List Char) : Option Float := do
  let (negative, cs) := splitSign text
  let whole := cs.takeWhile Char.isDigit
  let afterWhole := cs.dropWhile Char.isDigit
  let (places, rest) := match afterWhole with
    | '.' :: more => (more.takeWhile Char.isDigit, more.dropWhile Char.isDigit)
    | more => ([], more)
  if whole.isEmpty && places.isEmpty then none
  else
    let exponent ← parseExponent? rest
    return nearestDecimal negative (natOfDigits 0 (whole ++ places)) (exponent - places.length)

end TablePipeline.Binary64
