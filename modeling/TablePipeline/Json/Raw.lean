import TablePipeline.Json.Numeral
import TablePipeline.NameMap
import TablePipeline.Text.Hex
/-!
# JSON text

`Raw.parse?` reads a text into a tree that keeps everything a reader may still object to: members
in the order written with repeated keys, strings with a surrogate left alone, and numbers too large
for a double. `Raw.keep?` turns such a tree into a value, and fails where there is none.
-/

namespace TablePipeline.Json

/-- A JSON text, read. A string or a number that has no value is `none`. -/
inductive Raw
  | null
  | bool (b : Bool)
  | number (n : Option Number)
  | string (s : Option String)
  | array (items : List Raw)
  | object (members : List (Option String × Raw))

namespace Raw

instance : Inhabited Raw := ⟨.null⟩

/-- The characters that may stand between tokens. -/
def isBlank (c : Char) : Bool := c = ' ' || c = '\n' || c = '\t' || c = '\r'

/-- Drops the blanks in front. -/
def skipBlanks (cs : List Char) : List Char := cs.dropWhile isBlank

/-- The character that a one-letter escape stands for. -/
def simpleEscape? : Char → Option Char
  | '"' => some '"'
  | '\\' => some '\\'
  | '/' => some '/'
  | 'b' => some '\x08'
  | 'f' => some '\x0c'
  | 'n' => some '\n'
  | 'r' => some '\r'
  | 't' => some '\t'
  | _ => none

/-- Reads the rest of a string, after its opening quote, into code points and escaped code units.
Control characters have to be escaped. -/
def scanUnits? : List Char → Option (List Nat × List Char)
  | [] => none
  | '"' :: rest => some ([], rest)
  | '\\' :: 'u' :: a :: b :: c :: d :: rest => do
    let unit ← Text.natInBase? 16 [a, b, c, d]
    let (units, rest) ← scanUnits? rest
    return (unit :: units, rest)
  | '\\' :: c :: rest => do
    let c ← simpleEscape? c
    let (units, rest) ← scanUnits? rest
    return (c.toNat :: units, rest)
  | c :: rest =>
    if c.toNat < 0x20 then none
    else do
      let (units, rest) ← scanUnits? rest
      return (c.toNat :: units, rest)

/-- The unit is the first half of a pair of surrogates. -/
def isLeading (u : Nat) : Bool := 0xd800 ≤ u && u < 0xdc00

/-- The unit is the second half of a pair of surrogates. -/
def isTrailing (u : Nat) : Bool := 0xdc00 ≤ u && u < 0xe000

/-- Joins pairs of surrogates. There is no text if one stands alone. -/
def charsOfUnits? : List Nat → Option (List Char)
  | [] => some []
  | [u] => if isLeading u || isTrailing u then none else some [Char.ofNat u]
  | u :: v :: rest =>
    if isLeading u then
      if isTrailing v then
        (charsOfUnits? rest).map
          (Char.ofNat (0x10000 + (u - 0xd800) * 0x400 + (v - 0xdc00)) :: ·)
      else none
    else if isTrailing u then none
    else (charsOfUnits? (v :: rest)).map (Char.ofNat u :: ·)

/-- Reads the rest of a string, after its opening quote. -/
def scanString? (cs : List Char) : Option (Option String × List Char) := do
  let (units, rest) ← scanUnits? cs
  return ((charsOfUnits? units).map String.ofList, rest)

/-- Drops a word that the text has to start with. -/
def expect? : List Char → List Char → Option (List Char)
  | [], cs => some cs
  | c :: word, d :: cs => if c = d then expect? word cs else none
  | _ :: _, [] => none

mutual

/-- Reads a value and returns what follows it. The first argument bounds the number of steps. -/
def scanValue? : Nat → List Char → Option (Raw × List Char)
  | 0, _ => none
  | fuel + 1, cs =>
    match skipBlanks cs with
    | [] => none
    | '[' :: rest =>
      match skipBlanks rest with
      | ']' :: rest => some (.array [], rest)
      | rest => do
        let (items, rest) ← scanItems? fuel rest
        return (.array items, rest)
    | '{' :: rest =>
      match skipBlanks rest with
      | '}' :: rest => some (.object [], rest)
      | rest => do
        let (members, rest) ← scanMembers? fuel rest
        return (.object members, rest)
    | '"' :: rest => do
      let (s, rest) ← scanString? rest
      return (.string s, rest)
    | 'n' :: rest => do return (.null, ← expect? ['u', 'l', 'l'] rest)
    | 't' :: rest => do return (.bool true, ← expect? ['r', 'u', 'e'] rest)
    | 'f' :: rest => do return (.bool false, ← expect? ['a', 'l', 's', 'e'] rest)
    | c :: rest => do
      let (t, rest) ← Numeral.scan? (c :: rest)
      return (.number t.toNumber?, rest)

/-- Reads the values of an array up to its closing bracket. -/
def scanItems? : Nat → List Char → Option (List Raw × List Char)
  | 0, _ => none
  | fuel + 1, cs => do
    let (item, rest) ← scanValue? fuel cs
    match skipBlanks rest with
    | ']' :: rest => return ([item], rest)
    | ',' :: rest =>
      let (items, rest) ← scanItems? fuel rest
      return (item :: items, rest)
    | _ => none

/-- Reads the members of an object up to its closing brace. -/
def scanMembers? : Nat → List Char → Option (List (Option String × Raw) × List Char)
  | 0, _ => none
  | fuel + 1, cs =>
    match skipBlanks cs with
    | '"' :: rest => do
      let (key, rest) ← scanString? rest
      match skipBlanks rest with
      | ':' :: rest =>
        let (item, rest) ← scanValue? fuel rest
        match skipBlanks rest with
        | '}' :: rest => return ([(key, item)], rest)
        | ',' :: rest =>
          let (members, rest) ← scanMembers? fuel rest
          return ((key, item) :: members, rest)
        | _ => none
      | _ => none
    | _ => none

end

/-- Reads a text that holds one value. -/
def parse? (text : String) : Option Raw :=
  match scanValue? (2 * text.length + 2) text.toList with
  | some (value, rest) => if (skipBlanks rest).isEmpty then some value else none
  | none => none

/-- The value of a tree whose arrays and objects nest at most `depth` deep. The last member of a
key counts, and the members are sorted by key. -/
def keep? : Nat → Raw → Option Json
  | _, .null => some .null
  | _, .bool b => some (.bool b)
  | _, .number n => n.map .number
  | _, .string s => s.map .string
  | 0, .array _ => none
  | depth + 1, .array items => do
    return .array (← items.mapM (keep? depth))
  | 0, .object _ => none
  | depth + 1, .object members => do
    let members ← members.mapM fun (key, value) => do
      return (← key, ← keep? depth value)
    return .object (sortByName members)

/-- How deep arrays and objects may nest in a text that is kept. -/
def maxDepth : Nat := 127

end Raw

/-- Reads a text as a JSON value. -/
def parse? (text : String) : Option Json := do
  (← Raw.parse? text).keep? Raw.maxDepth

end TablePipeline.Json
