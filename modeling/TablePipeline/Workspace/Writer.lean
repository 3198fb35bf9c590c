import TablePipeline.Json.Writer
import TablePipeline.Workspace
/-!
# Writing workspaces

A block is an object with its name, type, fields and the block below, in this order. What is absent
or empty is left out, but for the type.
-/

namespace TablePipeline

mutual

/-- A block as an object. -/
def Block.toJson : Block → Json
  | ⟨id, kind, fields, next⟩ => .object
      ((match id with
        | none => []
        | some s => [("id", .string s)])
      ++ ("type", .string kind)
      :: (match fields with
        | [] => []
        | f :: fs => [("fields", .object (fieldsToJson (f :: fs)))])
      ++ nextToJson next)

/-- The member of the block below. -/
def nextToJson : Option Block → List (String × Json)
  | none => []
  | some b => [("next", b.toJson)]

/-- The members of some fields. -/
def fieldsToJson : List (String × Field Block) → List (String × Json)
  | [] => []
  | (name, f) :: rest => (name, fieldToJson f) :: fieldsToJson rest

/-- The content of a field. -/
def fieldToJson : Field Block → Json
  | .number n => .number n
  | .text s => .string s
  | .block b => b.toJson
  | .blocks bs => .array (blocksToJson bs)
  | .other j => j

/-- Some blocks as items. -/
def blocksToJson : List Block → List Json
  | [] => []
  | b :: bs => b.toJson :: blocksToJson bs

end

/-- A workspace as JSON. -/
def Workspace.toJson (w : Workspace) : Json := .object [("stacks", .array (blocksToJson w.heads))]

/-- The text of a workspace. -/
def Workspace.text (w : Workspace) : String := w.toJson.pretty

end TablePipeline
