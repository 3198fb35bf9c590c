/-!
# Arguments of the command

Options may stand before the subcommand and after it, and those after it win. `Request.ofArguments`
takes the arguments one at a time, and the first one that is wrong, or that asks for the version or
for help, decides.
-/

namespace TablePipeline.CommandLine

/-- How results are written. -/
inductive Format
  | text
  | json
deriving DecidableEq, Repr

/-- What to do. -/
inductive Command
  | run (program : String)
  | check (program : String)
  | datasets
deriving DecidableEq, Repr

/-- What to do, and how. -/
structure Invocation where
  /-- The file with the settings, if one is named. -/
  settings : Option String
  format : Format
  command : Command
deriving DecidableEq, Repr

/-- What some arguments ask for. -/
inductive Request
  | invoke (i : Invocation)
  | version
  | help
  /-- The arguments make no sense. -/
  | misuse
deriving DecidableEq, Repr

/-- The options given so far on one side of the subcommand. -/
structure Options where
  settings : Option String := none
  format : Option Format := none
  traceLevel : Option String := none

/-- An option that takes a value. -/
inductive OptionName
  | settings
  | format
  | traceLevel
deriving DecidableEq, Repr

/-- The option of a name. -/
def OptionName.ofText? (name : List Char) : Option OptionName :=
  if name = "config".toList then some .settings
  else if name = "format".toList then some .format
  else if name = "log-level".toList then some .traceLevel
  else none

/-- The format of a name. -/
def Format.ofText? (name : String) : Option Format :=
  if name = "text" then some .text else if name = "json" then some .json else none

/-- Sets an option that is not set yet. A file needs a name. -/
def Options.set (o : Options) (name : OptionName) (value : String) : Option Options :=
  match name with
  | .settings =>
    if o.settings.isSome || value = "" then none else some { o with settings := some value }
  | .format =>
    if o.format.isSome then none
    else (Format.ofText? value).map fun format => { o with format := some format }
  | .traceLevel =>
    if o.traceLevel.isSome then none else some { o with traceLevel := some value }

/-- An argument by its shape. -/
inductive Shape
  /-- Two dashes alone: no options follow. -/
  | escape
  /-- A long option, and its value if it is written with an equals sign. -/
  | long (name : List Char) (value : Option String)
  /-- A group of short options, of which the first is given. -/
  | short (first : Char)
  | plain
deriving DecidableEq, Repr

/-- The shape of an argument. A dash alone is no option. -/
def Shape.of (argument : String) : Shape :=
  match argument.toList with
  | ['-', '-'] => .escape
  | '-' :: '-' :: rest =>
    match rest.dropWhile (· ≠ '=') with
    | [] => .long rest none
    | _ :: value => .long (rest.takeWhile (· ≠ '=')) (some (String.ofList value))
  | '-' :: c :: _ => .short c
  | _ => .plain

/-- Takes the value of an option, from the argument itself or from the next one, which must not
look like an option. -/
def Options.take (o : Options) (name : OptionName) (value : Option String) (rest : List String) :
    Option (Options × List String) :=
  match value, rest with
  | some value, rest => (o.set name value).map (·, rest)
  | none, next :: rest =>
    if Shape.of next = .plain then (o.set name next).map (·, rest) else none
  | none, [] => none

/-- What is found on one side of the subcommand. -/
inductive Scan
  | version
  | help
  | misuse
  /-- All options up to a plain argument, or up to the end. -/
  | plain (options : Options) (argument : Option String) (rest : List String)

/-- Takes options up to the first plain argument. The first argument bounds their number, the
second tells whether the version may be asked for. -/
def scanOptions (versioned : Bool) : Nat → Options → List String → Scan
  | 0, _, _ => .misuse
  | _, o, [] => .plain o none []
  | n + 1, o, argument :: rest =>
    match Shape.of argument with
    | .plain => .plain o (some argument) rest
    | .escape => .plain o none rest
    | .short c =>
      if c = 'h' then .help else if c = 'V' && versioned then .version else .misuse
    | .long name value =>
      match OptionName.ofText? name with
      | some name =>
        match o.take name value rest with
        | some (o, rest) => scanOptions versioned n o rest
        | none => .misuse
      | none =>
        if name = "help".toList ∧ value = none then .help
        else if name = "version".toList ∧ value = none ∧ versioned then .version
        else .misuse

/-- A subcommand, and the file that it works on once that is known. -/
inductive Subcommand
  | run (program : Option String)
  | check (program : Option String)
  | datasets
deriving DecidableEq, Repr

namespace Subcommand

/-- The subcommand of a name. -/
def ofText? (name : String) : Option Subcommand :=
  if name = "run" then some (.run none)
  else if name = "check" then some (.check none)
  else if name = "datasets" then some .datasets
  else none

/-- Takes a file. A file needs a name, and there is room for one at most. -/
def takeFile? (file : String) : Subcommand → Option Subcommand
  | .run none => if file = "" then none else some (.run (some file))
  | .check none => if file = "" then none else some (.check (some file))
  | _ => none

/-- The command that is asked for, unless a file is missing. -/
def command? : Subcommand → Option Command
  | .run file => file.map .run
  | .check file => file.map .check
  | .datasets => some .datasets

end Subcommand

/-- The file with the settings: the one named after the subcommand, the one named before it, or the
fallback. Each side on which none is named looks at the fallback, which then must not be empty. -/
def settingsFile? (outer inner : Options) (fallback : Option String) : Option (Option String) :=
  if fallback = some "" ∧ (outer.settings.isNone ∨ inner.settings.isNone) then none
  else some (inner.settings <|> outer.settings <|> fallback)

/-- The request of a subcommand with its options. -/
def complete (outer inner : Options) (fallback : Option String) (subcommand : Subcommand) : Request :=
  match settingsFile? outer inner fallback, subcommand.command? with
  | some settings, some command => .invoke
      { settings
        format := (inner.format <|> outer.format).getD .text
        command }
  | _, _ => .misuse

/-- Takes what follows a subcommand: options and files, and only files after two dashes. -/
def scanSubcommand (outer : Options) (fallback : Option String) :
    Nat → Options → Subcommand → List String → Request
  | 0, _, _, _ => .misuse
  | n + 1, inner, subcommand, arguments =>
    match scanOptions false (arguments.length + 1) inner arguments with
    | .version => .version
    | .help => .help
    | .misuse => .misuse
    | .plain inner (some file) rest =>
      match subcommand.takeFile? file with
      | some subcommand => scanSubcommand outer fallback n inner subcommand rest
      | none => .misuse
    | .plain inner none rest =>
      match rest.foldlM (fun subcommand file => subcommand.takeFile? file) subcommand with
      | some subcommand => complete outer inner fallback subcommand
      | none => .misuse

/-- What some arguments ask for. The file with the settings may also be named by a fallback. -/
def Request.ofArguments (fallback : Option String) (arguments : List String) : Request :=
  match scanOptions true (arguments.length + 1) {} arguments with
  | .version => .version
  | .help => .help
  | .misuse => .misuse
  | .plain outer (some name) rest =>
    match Subcommand.ofText? name with
    | some subcommand => scanSubcommand outer fallback (rest.length + 1) {} subcommand rest
    | none => .misuse
  | .plain _ none _ => .misuse

end TablePipeline.CommandLine
