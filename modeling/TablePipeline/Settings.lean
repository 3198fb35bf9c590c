import TablePipeline.Run
import TablePipeline.Toml
/-!
# Settings

The options of a run can be set in the table `run` of a TOML text. That table may be headed, be
written inline, be built from dotted names, or be an array that lists the settings in order. There
is nothing else in the text, and nothing is set twice.
-/

namespace TablePipeline

/-- Why a text does not give settings. -/
inductive SettingsFault
  | malformed
  | zeroBins
deriving DecidableEq, Repr

/-- The fault in words. -/
def SettingsFault.reason : SettingsFault → String
  | .malformed => "malformed settings"
  | .zeroBins => "run.default_bins must be at least 1"

/-- A reason for which there are no settings, as a message. -/
def settingsMessage (reason : String) : String := "configuration error: " ++ reason

namespace Settings

/-- The settings found so far. -/
structure Draft where
  displayResults : Option Bool := none
  verbose : Option Bool := none
  defaultBins : Option Nat := none

/-- The count that a value sets. -/
def count? : Toml.Value → Option Nat
  | .scalar (.integer n) => if 0 ≤ n then some n.toInt.toNat else none
  | _ => none

/-- The truth value that a value sets. -/
def bool? : Toml.Value → Option Bool
  | .scalar (.bool b) => some b
  | _ => none

/-- Sets something that is not set yet. -/
def once {α : Type} (old new : Option α) : Option (Option α) :=
  if old.isSome || new.isNone then none else some new

/-- Sets one setting by name. -/
def Draft.assign (d : Draft) (path : List String) (v : Toml.Value) : Option Draft := do
  match path with
  | ["display_pipeline_results"] =>
    return { d with displayResults := ← once d.displayResults (bool? v) }
  | ["verbose_log"] => return { d with verbose := ← once d.verbose (bool? v) }
  | ["default_bins"] => return { d with defaultBins := ← once d.defaultBins (count? v) }
  | _ => none

/-- The settings of a whole table. An array lists them in order and may go on after them. -/
def Draft.ofValue? : Toml.Value → Option Draft
  | .table entries => entries.foldlM (fun d (path, v) => d.assign path v) {}
  | .array (results :: verbose :: bins :: _) => do
    return { displayResults := ← bool? results, verbose := ← bool? verbose,
             defaultBins := ← count? bins }
  | _ => none

/-- Where the settings stand: nowhere yet, in dotted names, under a heading, or in one value. -/
inductive Place
  | nowhere
  | dotted
  | headed
  | closed
deriving DecidableEq, Repr

/-- Takes account of one statement. -/
def addStatement : Place × Draft → Toml.Statement → Option (Place × Draft)
  | (.nowhere, d), .heading ["run"] => some (.headed, d)
  | (.headed, d), .assign path v => do return (.headed, ← d.assign path v)
  | (.nowhere, _), .assign ["run"] v => do return (.closed, ← Draft.ofValue? v)
  | (.nowhere, d), .assign ("run" :: path) v => do return (.dotted, ← d.assign path v)
  | (.dotted, d), .assign ("run" :: path) v => do return (.dotted, ← d.assign path v)
  | _, _ => none

/-- The settings of some statements. -/
def Draft.ofStatements? (statements : List Toml.Statement) : Option Draft := do
  return (← statements.foldlM addStatement (.nowhere, {})).2

/-- The options of a run, with the usual ones where nothing is set. -/
def Draft.toOptions (d : Draft) : Except SettingsFault RunOptions :=
  let usual : RunOptions := {}
  let options : RunOptions :=
    { displayResults := d.displayResults.getD usual.displayResults
      verbose := d.verbose.getD usual.verbose
      defaultBins := d.defaultBins.getD usual.defaultBins }
  if options.defaultBins = 0 then .error .zeroBins else .ok options

/-- Reads the options of a run. -/
def parse (text : String) : Except SettingsFault RunOptions :=
  match Toml.parse? text >>= Draft.ofStatements? with
  | some d => d.toOptions
  | none => .error .malformed

end Settings

end TablePipeline
