import TablePipeline.Binary64.Literal
import TablePipeline.Toml.Moment
import TablePipeline.Toml.Quoted
import TablePipeline.Word
/-!
# Scalars in TOML

A scalar is a quoted text or a word: a truth value, an integer, a number with places or an
exponent, or a moment. `scanScalar?` takes the longest word that there is, and all of it has to
make sense.
-/

namespace TablePipeline.Toml

/-- A value without parts. A moment is kept as it is written. -/
inductive Scalar
  | bool (b : Bool)
  | integer (n : Int64)
  | float (x : Float)
  | moment (written : String)
  | text (s : String)

/-- The character may stand in a name without quotes. -/
def isNameChar (c : Char) : Bool := c.isAlphanum || c = '-' || c = '_'

/-- The character may stand in a word. -/
def isWordChar (c : Char) : Bool := isNameChar c || c = '+' || c = '.' || c = ':'

/-- Drops the underscores from digits. Each has to stand between two digits. -/
def digits? : List Char → Option (List Char)
  | [] => none
  | [c] => if c = '_' then none else some [c]
  | c :: '_' :: d :: rest => if c = '_' then none else (digits? (d :: rest)).map (c :: ·)
  | c :: rest => if c = '_' then none else (digits? rest).map (c :: ·)

/-- Drops the underscores from the digits of a whole number, which has no leading zeros. -/
def wholeDigits? (cs : List Char) : Option (List Char) := do
  let ds ← digits? cs
  if ds.head? = some '0' ∧ ds.length ≠ 1 then none else some ds

/-- Reads an integer: decimal with an optional sign, or with a base. -/
def integer? (word : List Char) : Option Int64 := do
  match word with
  | '0' :: 'x' :: ds => Word.signed? (← Text.natInBase? 16 (← digits? ds))
  | '0' :: 'o' :: ds => Word.signed? (← Text.natInBase? 8 (← digits? ds))
  | '0' :: 'b' :: ds => Word.signed? (← Text.natInBase? 2 (← digits? ds))
  | _ =>
    let (negative, ds) := Binary64.splitSign word
    let n : Int ← Text.natInBase? 10 (← wholeDigits? ds)
    Word.signed? (if negative then -n else n)

/-- A digit, or an underscore between digits. -/
def isDigitMark (c : Char) : Bool := c.isDigit || c = '_'

/-- Reads an exponent mark with a signed whole number, to the end. No mark is the exponent 0. -/
def exponent? (cs : List Char) : Option Int := do
  if cs.isEmpty then some 0
  else
    let _ ← digits? (Binary64.splitSign (cs.drop 1)).2
    Binary64.parseExponent? (cs.filter (· ≠ '_'))

/-- Reads a number with places, an exponent or both, rounded to the nearest double. A number too
large for a double is refused, unless it is negative: that one is negative infinity. -/
def decimal? (word : List Char) : Option Float := do
  let (negative, cs) := Binary64.splitSign word
  let whole ← wholeDigits? (cs.takeWhile isDigitMark)
  let (places, cs) ← match cs.dropWhile isDigitMark with
    | [] => none
    | '.' :: cs => (digits? (cs.takeWhile isDigitMark)).map (·, cs.dropWhile isDigitMark)
    | cs => some ([], cs)
  let exponent ← exponent? cs
  let x := Binary64.nearestDecimal negative (Binary64.natOfDigits 0 (whole ++ places))
    (exponent - places.length)
  if negative || Binary64.isFinite x then some x else none

/-- Reads infinity, or what is no number, with an optional sign. -/
def special? (word : List Char) : Option Float :=
  let (negative, cs) := Binary64.splitSign word
  if cs = ['i', 'n', 'f'] then some (Binary64.ofMagnitude negative Binary64.infinityBits)
  else if cs = ['n', 'a', 'n'] then some (0.0 / 0.0)
  else none

/-- Reads a word. -/
def word? (word : List Char) : Option Scalar :=
  if word = ['t', 'r', 'u', 'e'] then some (.bool true)
  else if word = ['f', 'a', 'l', 's', 'e'] then some (.bool false)
  else if isMoment word then some (.moment (String.ofList word))
  else (integer? word).map .integer <|> (decimal? word <|> special? word).map .float

/-- Splits off a word. There may be one space between a date and the time that belongs to it. -/
def splitWord (cs : List Char) : List Char × List Char :=
  let word := cs.takeWhile isWordChar
  let rest := cs.dropWhile isWordChar
  match skipDate? word, rest with
  | some [], ' ' :: c :: after =>
    if isWordChar c then
      (word ++ ' ' :: (c :: after).takeWhile isWordChar, (c :: after).dropWhile isWordChar)
    else (word, rest)
  | _, _ => (word, rest)

/-- Reads a scalar and returns what follows it. -/
def scanScalar? (cs : List Char) : Option (Scalar × List Char) :=
  if cs.head? = some '"' ∨ cs.head? = some '\x27' then do
    let (s, rest) ← scanText? cs
    return (.text s, rest)
  else do
    let (word, rest) := splitWord cs
    return (← word? word, rest)

end TablePipeline.Toml
