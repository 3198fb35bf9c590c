/-!
# Files

Why a file cannot be read, and a tree of text files held in memory. A path is followed name by
name from the root or from the working directory, and the first name that leads nowhere decides
why it fails.
-/

namespace TablePipeline.CommandLine

/-- Why a file cannot be read. -/
inductive ReadFailure
  | notFound
  | notDirectory
  | isDirectory
  | nameTooLong
  | other (reason : String)
deriving DecidableEq, Repr

namespace ReadFailure

/-- The reason in words. -/
def reason : ReadFailure → String
  | .notFound => "No such file or directory (os error 2)"
  | .notDirectory => "Not a directory (os error 20)"
  | .isDirectory => "Is a directory (os error 21)"
  | .nameTooLong => "File name too long (os error 36)"
  | .other reason => reason

/-- There is no such file. -/
def isAbsent : ReadFailure → Bool
  | .notFound | .notDirectory | .nameTooLong => true
  | .isDirectory | .other _ => false

end ReadFailure

/-- A tree of files. A place in it is the list of names on the way there from the root. -/
structure Files where
  /-- Where paths start that do not start at the root. -/
  working : List String
  /-- Directories that are there whether or not a file is in them. -/
  directories : List (List String)
  /-- The files, by their places. -/
  entries : List (List String × String)

namespace Files

/-- The most bytes that a name may have. -/
def nameLimit : Nat := 255

/-- A path has fewer bytes than this. -/
def pathLimit : Nat := 4096

/-- The names in a path. -/
def namesOf (path : String) : List String := path.splitOn "/"

/-- The path starts at the root. -/
def isAbsolute (path : String) : Bool := path.toList.head? = some '/'

/-- Where one name leads. An empty one or a point stays, and two points go back, if not at the
root. -/
def step (place : List String) (name : String) : List String :=
  if name = "" ∨ name = "." then place
  else if name = ".." then place.dropLast
  else place ++ [name]

/-- The place that a path starts at. -/
def start (working : List String) (path : String) : List String :=
  if isAbsolute path then [] else working

/-- A tree of files given by path. -/
def ofPaths (working : List String) (directories : List (List String))
    (files : List (String × String)) : Files :=
  { working
    directories
    entries := files.map fun (path, text) => ((namesOf path).foldl step (start working path), text) }

/-- There is a directory at the place. -/
def hasDirectory (f : Files) (place : List String) : Bool :=
  (f.working :: f.directories ++ f.entries.map (·.1)).any fun known => place.isPrefixOf known

/-- Follows names from a directory. -/
def follow (f : Files) (directory : List String) : List String → Except ReadFailure String
  | [] => .error .isDirectory
  | name :: rest =>
    if nameLimit < name.utf8ByteSize then .error .nameTooLong
    else
      let here := step directory name
      match f.entries.lookup here with
      | some text => if rest.isEmpty then .ok text else .error .notDirectory
      | none => if f.hasDirectory here then f.follow here rest else .error .notFound

/-- Reads a file. -/
def read (f : Files) (path : String) : Except ReadFailure String :=
  if path = "" then .error .notFound
  else if pathLimit ≤ path.utf8ByteSize then .error .nameTooLong
  else f.follow (start f.working path) (namesOf path)

end Files

end TablePipeline.CommandLine
