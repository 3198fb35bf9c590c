import TablePipeline.Json
/-!
# Workspaces

A workspace holds stacks of blocks. A block has a type, named fields and maybe a block below it. A
field holds a number, a text, blocks plugged into it, or something else that no block can use.
-/

namespace TablePipeline

/-- The content of a field, where `β` are the blocks. -/
inductive Field (β : Type)
  | number (n : Json.Number)
  | text (s : String)
  | block (b : β)
  | blocks (bs : List β)
  | other (j : Json)

/-- A block. Its fields are sorted by name. -/
structure Block where
  /-- The name that the block was given, if it was given one. -/
  id : Option String
  /-- The type of the block, empty if it was left out. -/
  kind : String
  fields : List (String × Field Block)
  /-- The block below. -/
  next : Option Block

/-- Some stacks, each given by its topmost block. -/
structure Workspace where
  heads : List Block

/-- The content of a field in words. -/
def Field.describe {β : Type} : Field β → String
  | .number _ => "number"
  | .text _ => "text"
  | .block _ => "block"
  | .blocks _ => "block list"
  | .other .null => "null"
  | .other (.bool _) => "boolean"
  | .other _ => "unsupported value"

namespace Block

instance : Inhabited Block := ⟨⟨none, "", [], none⟩⟩

/-- A block without a name that stands alone. -/
def ofFields (kind : String) (fields : List (String × Field Block)) : Block :=
  { id := none, kind, fields := sortByName fields, next := none }

mutual

/-- A block and the blocks below it, from the top. -/
def chain : Block → List Block
  | ⟨id, kind, fields, next⟩ => ⟨id, kind, fields, next⟩ :: chainBelow next

/-- The blocks from the one given, if there is one. -/
def chainBelow : Option Block → List Block
  | none => []
  | some b => b.chain

end

/-- Puts blocks below each other. There is no stack without a block. -/
def stack? : List Block → Option Block
  | [] => none
  | b :: rest => some { b with next := stack? rest }

end Block

/-- The workspace of some chains of blocks. Empty ones are left out. -/
def Workspace.ofChains (chains : List (List Block)) : Workspace :=
  { heads := chains.filterMap Block.stack? }

end TablePipeline
