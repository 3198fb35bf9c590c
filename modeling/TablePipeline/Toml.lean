import TablePipeline.Toml.Scalar
/-!
# TOML

`Toml.parse?` reads a text into its statements, one to a line. Arrays and inline tables nest up to
a limit, which holds for the names of a path as well. Statements are not put together here: that
no name is set twice is up to the reader of the statements, except in an inline table.
-/

namespace TablePipeline.Toml

/-- A value. A table lists its entries by path, in the order written. -/
inductive Value
  | scalar (s : Scalar)
  | array (items : List Value)
  | table (entries : List (List String × Value))

/-- A statement: a heading, a heading of an item in an array of tables, or an assignment. -/
inductive Statement
  | heading (path : List String)
  | itemHeading (path : List String)
  | assign (path : List String) (v : Value)

/-- So many arrays and tables may stand in one another, and so many names in a path. -/
def depthLimit : Nat := 79

/-- Drops a comment. -/
def skipComment : List Char → List Char
  | '#' :: rest => rest.dropWhile isPlain
  | cs => cs

/-- Drops the rest of a line: spaces, a comment, and the line break unless the text ends. -/
def endLine? (cs : List Char) : Option (List Char) :=
  match skipComment (skipSpace cs) with
  | [] => some []
  | cs => skipChar? '\n' cs

/-- Drops spaces, comments and line breaks. The first argument tells that a comment is going on. -/
def skipLines : Bool → List Char → List Char
  | _, [] => []
  | inComment, c :: rest =>
    if c = '\n' then skipLines false rest
    else if inComment then if isPlain c then skipLines true rest else c :: rest
    else if c = '#' then skipLines true rest
    else if isSpace c then skipLines false rest
    else c :: rest

/-- Reads a name. -/
def scanName? (cs : List Char) : Option (String × List Char) :=
  match scanShortText? cs with
  | some result => some result
  | none =>
    let name := cs.takeWhile isNameChar
    if name.isEmpty then none else some (String.ofList name, cs.dropWhile isNameChar)

/-- Reads at most `n` names with points between them, and the spaces around them. -/
def scanPath? : Nat → List Char → Option (List String × List Char)
  | 0, _ => none
  | n + 1, cs => do
    let (name, rest) ← scanName? (skipSpace cs)
    match skipSpace rest with
    | '.' :: rest =>
      let (path, rest) ← scanPath? n rest
      return (name :: path, rest)
    | rest => return ([name], rest)

/-- None of the paths is another one, or leads on to another one. -/
def areApart : List (List String) → Bool
  | [] => true
  | path :: rest =>
    rest.all (fun other => !path.isPrefixOf other && !other.isPrefixOf path) && areApart rest

/-- Reads at most `n` items of an array, up to its closing bracket. The last one may have a
comma. -/
def scanItems? (scan : List Char → Option (Value × List Char)) :
    Nat → List Char → Option (List Value × List Char)
  | 0, _ => none
  | n + 1, cs =>
    match skipLines false cs with
    | ']' :: rest => some ([], rest)
    | cs => do
      let (item, rest) ← scan cs
      match skipLines false rest with
      | ']' :: rest => return ([item], rest)
      | ',' :: rest =>
        let (items, rest) ← scanItems? scan n rest
        return (item :: items, rest)
      | _ => none

/-- Reads at most `n` entries of an inline table, up to its closing brace. -/
def scanEntries? (scan : List Char → Option (Value × List Char)) :
    Nat → List Char → Option (List (List String × Value) × List Char)
  | 0, _ => none
  | n + 1, cs => do
    let (path, rest) ← scanPath? depthLimit cs
    let (v, rest) ← scan (skipSpace (← skipChar? '=' rest))
    match skipSpace rest with
    | '}' :: rest => return ([(path, v)], rest)
    | ',' :: rest =>
      let (entries, rest) ← scanEntries? scan n rest
      return ((path, v) :: entries, rest)
    | _ => none

/-- Reads an inline table with at most `n` entries, up to its closing brace. -/
def scanTable? (scan : List Char → Option (Value × List Char)) (n : Nat) (cs : List Char) :
    Option (List (List String × Value) × List Char) :=
  match skipSpace cs with
  | '}' :: rest => some ([], rest)
  | _ => do
    let (entries, rest) ← scanEntries? scan n cs
    if areApart (entries.map (·.1)) then some (entries, rest) else none

/-- Reads a value and returns what follows it. The first argument bounds the items of any array or
table in it, the second tells how many arrays and tables may stand in one another. -/
def scanValue? (n : Nat) : Nat → List Char → Option (Value × List Char)
  | depth + 1, '[' :: rest => do
    let (items, rest) ← scanItems? (scanValue? n depth) n rest
    return (.array items, rest)
  | depth + 1, '{' :: rest => do
    let (entries, rest) ← scanTable? (scanValue? n depth) n rest
    return (.table entries, rest)
  | _, cs => do
    let (s, rest) ← scanScalar? cs
    return (.scalar s, rest)

/-- Reads a statement up to the end of its line. The first argument bounds the items of a value. -/
def scanStatement? (n : Nat) : List Char → Option (Statement × List Char)
  | '[' :: '[' :: rest => do
    let (path, rest) ← scanPath? depthLimit rest
    match rest with
    | ']' :: ']' :: rest => return (.itemHeading path, rest)
    | _ => none
  | '[' :: rest => do
    let (path, rest) ← scanPath? depthLimit rest
    match rest with
    | ']' :: rest => return (.heading path, rest)
    | _ => none
  | cs => do
    let (path, rest) ← scanPath? depthLimit cs
    let (v, rest) ← scanValue? n depthLimit (skipSpace (← skipChar? '=' rest))
    return (.assign path v, rest)

/-- Reads the statements of a text of fewer than `n` characters. -/
def scanLines? : Nat → List Char → Option (List Statement)
  | 0, _ => none
  | n + 1, cs =>
    match skipLines false cs with
    | [] => some []
    | cs => do
      let (statement, rest) ← scanStatement? (n + 1) cs
      return statement :: (← scanLines? n (← endLine? rest))

/-- Makes every line break a line feed. -/
def unifyBreaks : List Char → List Char
  | [] => []
  | '\r' :: '\n' :: rest => '\n' :: unifyBreaks rest
  | c :: rest => c :: unifyBreaks rest

/-- Drops the byte order mark that may stand in front of a text. -/
def skipMark : List Char → List Char
  | '\ufeff' :: cs => cs
  | cs => cs

/-- Reads a text. -/
def parse? (text : String) : Option (List Statement) :=
  let cs := unifyBreaks (skipMark text.toList)
  scanLines? (cs.length + 1) cs

end TablePipeline.Toml
