import TablePipeline.Json.Raw
import TablePipeline.Workspace
/-!
# Reading workspaces

A workspace and a block are read from objects, or from arrays that list their parts in order.
Members with unknown keys are skipped whatever they hold, a known key may stand only once. What a
field holds is kept: a number, a text, a block or a list of blocks if it can be read as one, in this
order, and else the value as it is.
-/

namespace TablePipeline

open Json (Raw)

namespace Json.Raw

/-- The members of an object by key, which all have to be proper texts. -/
def keyed? (members : List (Option String × Raw)) : Option (List (String × Raw)) :=
  members.mapM fun (key, value) => do return (← key, value)

/-- The only value of a key, if it has one. A repeated key is refused. -/
def single? (key : String) (members : List (String × Raw)) : Option (Option Raw) :=
  match members.filter (·.1 = key) with
  | [] => some none
  | [(_, value)] => some (some value)
  | _ => none

/-- The parts of an object with the given keys, or of an array that lists them in order and may
stop early. -/
def parts? (keys : List String) : Raw → Option (List (Option Raw))
  | .object members => do
    let members ← keyed? members
    keys.mapM (single? · members)
  | .array items =>
    if items.length ≤ keys.length then
      some (items.map some ++ List.replicate (keys.length - items.length) none)
    else none
  | _ => none

/-- A text. -/
def text? : Raw → Option String
  | .string s => s
  | _ => none

/-- A text or null. -/
def optionalText? : Raw → Option (Option String)
  | .null => some none
  | .string s => s.map some
  | _ => none

end Json.Raw

/-- Reads the content of a field, within the given nesting. -/
def Field.ofRaw? (depth : Nat) (readBlock : Raw → Option Block) (r : Raw) :
    Option (Field Block) := do
  match ← r.keep? depth with
  | .number n => return .number n
  | .string s => return .text s
  | value =>
    match readBlock r with
    | some b => return .block b
    | none =>
      match r with
      | .array items =>
        match items.mapM readBlock with
        | some bs => return .blocks bs
        | none => return .other value
      | _ => return .other value

/-- Reads the fields of a block, each with the given reader. -/
def Block.fieldsOfRaw? (readField : Raw → Option (Field Block)) :
    Raw → Option (List (String × Field Block))
  | .object members => do
    let members ← Raw.keyed? members
    let fields ← members.mapM fun (name, value) => do return (name, ← readField value)
    return sortByName fields
  | _ => none

/-- Reads a block, within the given nesting. -/
def Block.ofRaw? : Nat → Raw → Option Block
  | 0, _ => none
  | depth + 1, r => do
    match ← r.parts? ["id", "type", "fields", "next"] with
    | [id, kind, fields, next] =>
      let id ← match id with
        | none => some none
        | some r => r.optionalText?
      let kind ← match kind with
        | none => some ""
        | some r => r.text?
      let fields ← match fields with
        | none => some []
        | some r =>
          match depth with
          | 0 => none
          | inner + 1 => fieldsOfRaw? (Field.ofRaw? inner (Block.ofRaw? inner)) r
      let next ← match next with
        | none => some none
        | some .null => some none
        | some r => (Block.ofRaw? depth r).map some
      return { id, kind, fields, next }
    | _ => none

/-- Reads the stacks of a workspace, within the given nesting. -/
def Workspace.headsOfRaw? : Nat → Raw → Option (List Block)
  | depth + 1, .array items => items.mapM (Block.ofRaw? depth)
  | _, _ => none

/-- Reads a workspace. -/
def Workspace.ofRaw? (r : Raw) : Option Workspace := do
  match ← r.parts? ["stacks"] with
  | [none] => return { heads := [] }
  | [some r] => return { heads := ← headsOfRaw? (Raw.maxDepth - 1) r }
  | _ => none

/-- Reads the text of a workspace. -/
def Workspace.parse? (text : String) : Option Workspace := do ofRaw? (← Raw.parse? text)

end TablePipeline
