import TablePipeline.Text.Hex
/-!
# Quoted texts in TOML

Double quotes admit escapes and single quotes do not. One quote on either side keeps a text on its
line; three let it run over several lines. Line breaks are line feeds here.
-/

namespace TablePipeline.Toml

/-- A blank within a line. -/
def isSpace (c : Char) : Bool := c = ' ' || c = '\t'

/-- Drops spaces and tabs. -/
def skipSpace (cs : List Char) : List Char := cs.dropWhile isSpace

/-- The character may stand in a comment or a text: no control character but the tab. -/
def isPlain (c : Char) : Bool := c = '\t' || (0x20 ≤ c.toNat && c.toNat ≠ 0x7f)

/-- The character of a code point, if it is one. -/
def charOf? (n : Nat) : Option Char := if n.isValidChar then some (Char.ofNat n) else none

/-- The character that a letter after a backslash stands for. -/
def escaped? : Char → Option Char
  | 'b' => some '\x08'
  | 't' => some '\t'
  | 'n' => some '\n'
  | 'f' => some '\x0c'
  | 'r' => some '\r'
  | '"' => some '"'
  | '\\' => some '\\'
  | _ => none

/-- Reads the closing quote of a text, or the closing three of a long one. Up to two more quotes
before those three belong to the text. -/
def scanClosing? (long : Bool) (quote : Char) (cs : List Char) : Option (List Char × List Char) :=
  let run := (cs.takeWhile (· = quote)).length
  if long then
    if run < 3 then none
    else
      let kept := min (run - 3) 2
      some (List.replicate kept quote, cs.drop (kept + 3))
  else if run = 0 then none
  else some ([], cs.drop 1)

/-- Reads the rest of a text between single quotes. -/
def scanLiteral? (long : Bool) : List Char → Option (List Char × List Char)
  | [] => none
  | c :: rest =>
    match scanClosing? long '\x27' (c :: rest) with
    | some result => some result
    | none =>
      if isPlain c || (long && c = '\n') then do
        let (s, rest) ← scanLiteral? long rest
        return (c :: s, rest)
      else none

/-- Reads the rest of a text between double quotes. In a long one a backslash at the end of a line
drops all blanks and line breaks up to the next other character; the second argument tells that
this is going on. -/
def scanEscaped? (long : Bool) : Bool → List Char → Option (List Char × List Char)
  | _, [] => none
  | dropping, c :: rest =>
    if dropping && (isSpace c || c = '\n') then scanEscaped? long true rest
    else
      match scanClosing? long '"' (c :: rest) with
      | some result => some result
      | none =>
        if c = '\\' then
          if long && (skipSpace rest).head? = some '\n' then scanEscaped? long true rest
          else
            match rest with
            | 'u' :: d₁ :: d₂ :: d₃ :: d₄ :: rest => do
              let x ← charOf? (← Text.natInBase? 16 [d₁, d₂, d₃, d₄])
              let (s, rest) ← scanEscaped? long false rest
              return (x :: s, rest)
            | 'U' :: d₁ :: d₂ :: d₃ :: d₄ :: d₅ :: d₆ :: d₇ :: d₈ :: rest => do
              let x ← charOf? (← Text.natInBase? 16 [d₁, d₂, d₃, d₄, d₅, d₆, d₇, d₈])
              let (s, rest) ← scanEscaped? long false rest
              return (x :: s, rest)
            | letter :: rest => do
              let x ← escaped? letter
              let (s, rest) ← scanEscaped? long false rest
              return (x :: s, rest)
            | [] => none
        else if isPlain c || (long && c = '\n') then do
          let (s, rest) ← scanEscaped? long false rest
          return (c :: s, rest)
        else none

/-- Drops the line break that may follow the three opening quotes. -/
def skipBreak : List Char → List Char
  | '\n' :: rest => rest
  | cs => cs

/-- Reads a text between single or double quotes that stays on its line. -/
def scanShortText? (cs : List Char) : Option (String × List Char) := do
  let (s, rest) ← match cs with
    | '"' :: rest => scanEscaped? false false rest
    | '\x27' :: rest => scanLiteral? false rest
    | _ => none
  return (String.ofList s, rest)

/-- Reads a text between quotes of any kind. -/
def scanText? (cs : List Char) : Option (String × List Char) :=
  match cs with
  | '"' :: '"' :: '"' :: rest => do
    let (s, rest) ← scanEscaped? true false (skipBreak rest)
    return (String.ofList s, rest)
  | '\x27' :: '\x27' :: '\x27' :: rest => do
    let (s, rest) ← scanLiteral? true (skipBreak rest)
    return (String.ofList s, rest)
  | _ => scanShortText? cs

end TablePipeline.Toml
