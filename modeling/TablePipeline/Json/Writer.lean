import TablePipeline.Json
import TablePipeline.Binary64.Shortest
/-!
# Writing JSON

A value is written on one line without blanks (`compact`), or with one item or member to a line and
two blanks to a level (`pretty`). Numbers and strings are written alike in both.
-/

namespace TablePipeline.Json

/-- Doubles have the fewest digits that read back and always a point or an exponent. The exponents
from -5 to 15 are written out. -/
def floatText : Binary64.FloatText where
  tie := .toEven
  positional := some (-5, 15)
  pointZero := true
  infinity := "null"
  negativeInfinity := "null"
  nan := "null"

/-- The decimal digits of a natural. -/
def digits (n : Nat) : List Char := Nat.toDigits 10 n

/-- Writes a number: an integer with its decimal digits, a double as `floatText` says. -/
def Number.write : Number → List Char
  | .unsigned n => digits n.toNat
  | .signed n => if n < 0 then '-' :: digits n.toInt.natAbs else digits n.toInt.natAbs
  | .float x => (floatText.write x.toFloat).toList

/-- Writes a character inside quotes. Quotes, backslashes and control characters are escaped. -/
def escape (c : Char) : List Char :=
  if c = '"' then ['\\', '"']
  else if c = '\\' then ['\\', '\\']
  else if c = '\x08' then ['\\', 'b']
  else if c = '\x0c' then ['\\', 'f']
  else if c = '\n' then ['\\', 'n']
  else if c = '\r' then ['\\', 'r']
  else if c = '\t' then ['\\', 't']
  else if c.toNat < 0x20 then
    ['\\', 'u', '0', '0', Nat.digitChar (c.toNat / 16), Nat.digitChar (c.toNat % 16)]
  else [c]

/-- Writes a text between quotes. -/
def quote (s : String) : List Char := '"' :: s.toList.flatMap escape ++ ['"']

mutual

/-- Writes a value without blanks. -/
def compactChars : Json → List Char
  | .null => ['n', 'u', 'l', 'l']
  | .bool true => ['t', 'r', 'u', 'e']
  | .bool false => ['f', 'a', 'l', 's', 'e']
  | .number n => n.write
  | .string s => quote s
  | .array [] => ['[', ']']
  | .array (item :: items) => '[' :: compactChars item ++ compactItems items
  | .object [] => ['{', '}']
  | .object ((key, value) :: members) =>
    '{' :: quote key ++ ':' :: compactChars value ++ compactMembers members

/-- Writes the items after the first one, each after a comma, and closes the array. -/
def compactItems : List Json → List Char
  | [] => [']']
  | item :: items => ',' :: compactChars item ++ compactItems items

/-- Writes the members after the first one, each after a comma, and closes the object. -/
def compactMembers : List (String × Json) → List Char
  | [] => ['}']
  | (key, value) :: members =>
    ',' :: quote key ++ ':' :: compactChars value ++ compactMembers members

end

/-- Starts a line of the given level. -/
def newline (level : Nat) : List Char := '\n' :: List.replicate (2 * level) ' '

mutual

/-- Writes a value that starts on a line of the given level. -/
def prettyChars (level : Nat) : Json → List Char
  | .null => ['n', 'u', 'l', 'l']
  | .bool true => ['t', 'r', 'u', 'e']
  | .bool false => ['f', 'a', 'l', 's', 'e']
  | .number n => n.write
  | .string s => quote s
  | .array [] => ['[', ']']
  | .array (item :: items) =>
    '[' :: newline (level + 1) ++ prettyChars (level + 1) item ++ prettyItems level items
  | .object [] => ['{', '}']
  | .object ((key, value) :: members) =>
    '{' :: newline (level + 1) ++ quote key ++ ':' :: ' ' :: prettyChars (level + 1) value
      ++ prettyMembers level members

/-- Writes the items after the first one and closes the array. -/
def prettyItems (level : Nat) : List Json → List Char
  | [] => newline level ++ [']']
  | item :: items =>
    ',' :: newline (level + 1) ++ prettyChars (level + 1) item ++ prettyItems level items

/-- Writes the members after the first one and closes the object. -/
def prettyMembers (level : Nat) : List (String × Json) → List Char
  | [] => newline level ++ ['}']
  | (key, value) :: members =>
    ',' :: newline (level + 1) ++ quote key ++ ':' :: ' ' :: prettyChars (level + 1) value
      ++ prettyMembers level members

end

/-- The text of a value on one line. -/
def compact (j : Json) : String := String.ofList j.compactChars

/-- The text of a value with one item or member to a line. -/
def pretty (j : Json) : String := String.ofList (j.prettyChars 0)

end TablePipeline.Json
