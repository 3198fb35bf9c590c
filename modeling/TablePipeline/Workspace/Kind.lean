import TablePipeline.Operator
/-!
# Types of blocks

`Kind.ofName` reads the type of a block, and `Role.ofName` says what a block of a type is for: to
start a pipeline, to go on with one, or to be plugged into another block. Each has a table of names
of its own. `Kind.role` says what they have to agree on.
-/

namespace TablePipeline

/-- What a block stands for. -/
inductive Kind
  /-- A dataset that is named by the type itself. -/
  | dataset (name : String)
  /-- A dataset that is named by a field. -/
  | namedDataset
  | join
  | select
  | filter
  | mutate
  | group
  | summarize
  | notify
  | histogram
  | bar
  | scatter
  | number
  | text
  | missing
  | boolean
  | column
  | compare
  | arithmetic
  | aggregate (function : AggregateFn)
  | unknown
deriving DecidableEq, Repr

/-- What a type of block is for. -/
inductive Role
  | source
  | stage
  | expression
  | unknown
deriving DecidableEq, Repr

/-- The rest of a text after a given beginning. -/
def after? (start text : String) : Option String :=
  if start.toList.isPrefixOf text.toList then
    some (String.ofList (text.toList.drop start.toList.length))
  else none

namespace Kind

/-- The types with a fixed name. -/
def fixed : List (String × Kind) :=
  [("data_user", .namedDataset), ("plumbing_join", .join), ("dplyr_select", .select),
    ("dplyr_filter", .filter), ("dplyr_mutate", .mutate), ("dplyr_groupby", .group),
    ("dplyr_summarize", .summarize), ("plumbing_notify", .notify), ("ggplot_hist", .histogram),
    ("ggplot_bar", .bar), ("ggplot_point", .scatter), ("variable_number", .number),
    ("variable_text", .text), ("variable_missing", .missing), ("logic_boolean", .boolean),
    ("variable_column", .column), ("variable_compare", .compare),
    ("stats_arithmetic", .arithmetic)]

/-- The type that a name stands for. -/
def ofName (name : String) : Kind :=
  match fixed.lookup name with
  | some kind => kind
  | none =>
    match after? "data_" name with
    | some rest => .dataset rest
    | none =>
      match after? "stats_" name >>= AggregateFn.ofCode? with
      | some function => .aggregate function
      | none => .unknown

/-- What a type of block is for. -/
def role : Kind → Role
  | .dataset _ | .namedDataset | .join => .source
  | .select | .filter | .mutate | .group | .summarize | .notify | .histogram | .bar | .scatter =>
    .stage
  | .number | .text | .missing | .boolean | .column | .compare | .arithmetic | .aggregate _ =>
    .expression
  | .unknown => .unknown

end Kind

namespace Role

/-- What the types with a fixed name are for. -/
def fixed : List (String × Role) :=
  [("plumbing_join", .source), ("dplyr_select", .stage), ("dplyr_filter", .stage),
    ("dplyr_mutate", .stage), ("dplyr_groupby", .stage), ("dplyr_summarize", .stage),
    ("plumbing_notify", .stage), ("ggplot_hist", .stage), ("ggplot_bar", .stage),
    ("ggplot_point", .stage), ("variable_number", .expression), ("variable_text", .expression),
    ("variable_missing", .expression), ("logic_boolean", .expression),
    ("variable_column", .expression), ("variable_compare", .expression),
    ("stats_arithmetic", .expression)]

/-- What the type with a name is for. All datasets are sources, also the one that a field names. -/
def ofName (name : String) : Role :=
  match fixed.lookup name with
  | some role => role
  | none =>
    if (after? "data_" name).isSome then .source
    else if (after? "stats_" name >>= AggregateFn.ofCode?).isSome then .expression
    else .unknown

/-- Both tables agree on every type with a fixed name. -/
theorem ofName_of_lookup {name : String} {kind : Kind} (h : Kind.fixed.lookup name = some kind) :
    ofName name = kind.role := by
  have hfixed : ∀ e ∈ Kind.fixed, ofName e.1 = e.2.role := by decide
  obtain ⟨before, after, heq, -⟩ := List.lookup_eq_some_iff.mp h
  exact hfixed (name, kind) (heq ▸ List.mem_append_right _ List.mem_cons_self)

/-- The table of roles has no name that the table of types lacks. -/
theorem lookup_fixed_eq_none {name : String} (h : Kind.fixed.lookup name = none) :
    fixed.lookup name = none := by
  have hnames : ∀ e ∈ fixed, e.1 ∈ Kind.fixed.map (·.1) := by decide
  rw [List.lookup_eq_none_iff] at h ⊢
  intro e he
  obtain ⟨e', he', hname⟩ := List.mem_map.mp (hnames e he)
  exact hname ▸ h e' he'

/-- The role of a name is that of the type which the name stands for. -/
theorem ofName_eq (name : String) : ofName name = (Kind.ofName name).role := by
  rw [Kind.ofName]
  cases hkind : Kind.fixed.lookup name with
  | some kind => exact ofName_of_lookup hkind
  | none =>
    rw [ofName, lookup_fixed_eq_none hkind]
    cases after? "data_" name with
    | some rest => rfl
    | none =>
      cases after? "stats_" name >>= AggregateFn.ofCode? with
      | some function => rfl
      | none => rfl

end Role

end TablePipeline
