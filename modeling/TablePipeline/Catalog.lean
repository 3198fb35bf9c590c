import TablePipeline.Table
/-!
# Catalogs

A catalog holds tables by name, for programs to load. `Catalog.standard` is the one that programs
are run with unless they are given another.
-/

namespace TablePipeline

/-- Tables by name. -/
abbrev Catalog := NameMap Table

namespace Catalog

/-- A color by its name and its parts of red, green and blue. -/
def color (name : String) (red green blue : Int64) : Row :=
  .ofList
    [("name", .text name), ("red", .int red), ("green", .int green), ("blue", .int blue)]

/-- Eleven colors. -/
def colors : Table where
  rows :=
    [color "black" 0 0 0, color "blue" 0 0 255, color "red" 255 0 0, color "navy" 0 0 128,
      color "lime" 0 255 0, color "fuchsia" 255 0 255, color "maroon" 128 0 0,
      color "aqua" 0 255 255, color "yellow" 255 255 0, color "green" 0 128 0,
      color "white" 255 255 255]

/-- One row with one column. -/
def single : Table where
  rows := [.ofList [("first", .int 1)]]

/-- Two rows with two columns. -/
def double : Table where
  rows :=
    [.ofList [("first", .int 1), ("second", .int 100)],
      .ofList [("first", .int 2), ("second", .int 200)]]

/-- The datasets that are always there. -/
def standard : Catalog :=
  .ofList [("colors", colors), ("single", single), ("double", double)]

/-- The table of a name. -/
def load (catalog : Catalog) (name : String) : Except Error Table :=
  match catalog.get? name with
  | some t => .ok t
  | none => .error (.unknownDataset name)

end Catalog

end TablePipeline
