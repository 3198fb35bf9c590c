import TablePipeline.Binary64.Literal
/-!
# Dates and times in TOML

A moment is a date, a time of day, or both with an optional distance from universal time. The day
has to be one of its month. Sixty seconds are possible, for a minute with a leap second.
-/

namespace TablePipeline.Toml

/-- The year has a 29th of February. -/
def isLeapYear (year : Nat) : Bool := year % 4 = 0 && (year % 100 ≠ 0 || year % 400 = 0)

/-- How many days a month has. -/
def daysIn (year month : Nat) : Nat :=
  if month = 2 then if isLeapYear year then 29 else 28
  else if month = 4 ∨ month = 6 ∨ month = 9 ∨ month = 11 then 30
  else 31

/-- Drops a character, which has to be there. -/
def skipChar? (expected : Char) : List Char → Option (List Char)
  | [] => none
  | c :: rest => if c = expected then some rest else none

/-- Reads a number of `n` digits from `low` to `high`. -/
def scanField? (n low high : Nat) (cs : List Char) : Option (Nat × List Char) :=
  let digits := cs.take n
  let value := Binary64.natOfDigits 0 digits
  if digits.length = n ∧ digits.all Char.isDigit ∧ low ≤ value ∧ value ≤ high then
    some (value, cs.drop n)
  else none

/-- Drops a date, which has to be there. -/
def skipDate? (cs : List Char) : Option (List Char) := do
  let (year, cs) ← scanField? 4 0 9999 cs
  let (month, cs) ← scanField? 2 1 12 (← skipChar? '-' cs)
  let (_, cs) ← scanField? 2 1 (daysIn year month) (← skipChar? '-' cs)
  return cs

/-- Drops a time of day, which has to be there. The seconds may have places. -/
def skipTime? (cs : List Char) : Option (List Char) := do
  let (_, cs) ← scanField? 2 0 23 cs
  let (_, cs) ← scanField? 2 0 59 (← skipChar? ':' cs)
  let (_, cs) ← scanField? 2 0 60 (← skipChar? ':' cs)
  match cs with
  | '.' :: rest =>
    if (rest.takeWhile Char.isDigit).isEmpty then none else some (rest.dropWhile Char.isDigit)
  | rest => some rest

/-- The text is a distance from universal time: none, or hours and minutes with a sign. -/
def isOffset : List Char → Bool
  | [] => true
  | ['Z'] => true
  | ['z'] => true
  | c :: cs => (c = '+' || c = '-') && (do
      let (_, cs) ← scanField? 2 0 23 cs
      let (_, cs) ← scanField? 2 0 59 (← skipChar? ':' cs)
      return cs) = some []

/-- The text is a moment. A letter or a space divides the date from the time. -/
def isMoment (cs : List Char) : Bool :=
  match skipDate? cs with
  | some [] => true
  | some (c :: rest) => (c = 'T' || c = 't' || c = ' ') && (skipTime? rest).any isOffset
  | none => skipTime? cs = some []

end TablePipeline.Toml
