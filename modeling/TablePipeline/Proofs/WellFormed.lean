import TablePipeline.Program
/-!
# Well-formed programs

`Program.WellFormed` says what a workspace can ask for: every pipeline starts with its only source,
plots come last, nothing is unnamed, aggregates stand in summaries and nowhere else, and literals
and bins can be written down. It is a property of the program alone and can be decided.
-/

namespace TablePipeline

/-- The value can be written as a literal: it is neither infinite nor NaN. -/
def Value.IsLiteral : Value → Prop
  | .float x => Binary64.isFinite x = true
  | .missing | .bool _ | .int _ | .text _ => True

instance : (v : Value) → Decidable v.IsLiteral
  | .float x => inferInstanceAs (Decidable (Binary64.isFinite x = true))
  | .missing | .bool _ | .int _ | .text _ => inferInstanceAs (Decidable True)

namespace Expr

def WellFormed : Expr → Prop
  | .literal v => v.IsLiteral
  | .column name => name ≠ ""
  | .compare _ left right | .arithmetic _ left right => left.WellFormed ∧ right.WellFormed
  | .aggregate .. => False

def WellFormedAggregate : Expr → Prop
  | .aggregate _ name => name ≠ ""
  | .literal _ | .column _ | .compare .. | .arithmetic .. => False

instance decidableWellFormed : (e : Expr) → Decidable e.WellFormed
  | .literal v => inferInstanceAs (Decidable v.IsLiteral)
  | .column name => inferInstanceAs (Decidable (name ≠ ""))
  | .compare _ left right | .arithmetic _ left right =>
    have := decidableWellFormed left
    have := decidableWellFormed right
    inferInstanceAs (Decidable (left.WellFormed ∧ right.WellFormed))
  | .aggregate .. => inferInstanceAs (Decidable False)

instance : (e : Expr) → Decidable e.WellFormedAggregate
  | .aggregate _ name => inferInstanceAs (Decidable (name ≠ ""))
  | .literal _ | .column _ | .compare .. | .arithmetic .. => inferInstanceAs (Decidable False)

end Expr

/-- A plot of named columns, with at least one bin if it has bins. -/
def Plot.WellFormed : Plot → Prop
  | .histogram column bins => column ≠ "" ∧ 1 ≤ bins
  | .bar x y => x ≠ "" ∧ y ≠ ""
  | .scatter x y color => x ≠ "" ∧ y ≠ "" ∧ color ≠ some ""

instance : (plot : Plot) → Decidable plot.WellFormed
  | .histogram column bins => inferInstanceAs (Decidable (column ≠ "" ∧ 1 ≤ bins))
  | .bar x y => inferInstanceAs (Decidable (x ≠ "" ∧ y ≠ ""))
  | .scatter x y color => inferInstanceAs (Decidable (x ≠ "" ∧ y ≠ "" ∧ color ≠ some ""))

/-- A stage whose names are not empty, whose lists are not empty, and whose expressions suit it. -/
def Stage.WellFormed : Stage → Prop
  | .load source => source ≠ ""
  | .select columns => columns.names ≠ [] ∧ ∀ name ∈ columns.names, name ≠ ""
  | .filter predicate => predicate.WellFormed
  | .mutate column value => column ≠ "" ∧ value.WellFormed
  | .group column => column ≠ ""
  | .summarize aggregates => aggregates ≠ [] ∧ ∀ e ∈ aggregates, e.WellFormedAggregate
  | .notify name => name ≠ ""
  | .join leftName leftColumn rightName rightColumn =>
    leftName ≠ "" ∧ leftColumn ≠ "" ∧ rightName ≠ "" ∧ rightColumn ≠ ""
  | .visualize plot => plot.WellFormed

instance : (stage : Stage) → Decidable stage.WellFormed
  | .load name | .group name | .notify name => inferInstanceAs (Decidable (name ≠ ""))
  | .select columns =>
    inferInstanceAs (Decidable (columns.names ≠ [] ∧ ∀ name ∈ columns.names, name ≠ ""))
  | .filter predicate => inferInstanceAs (Decidable predicate.WellFormed)
  | .mutate column value => inferInstanceAs (Decidable (column ≠ "" ∧ value.WellFormed))
  | .summarize aggregates =>
    inferInstanceAs (Decidable (aggregates ≠ [] ∧ ∀ e ∈ aggregates, e.WellFormedAggregate))
  | .join a b c d => inferInstanceAs (Decidable (a ≠ "" ∧ b ≠ "" ∧ c ≠ "" ∧ d ≠ ""))
  | .visualize plot => inferInstanceAs (Decidable plot.WellFormed)

/-- A pipeline of well-formed stages that starts with its only source and shows a plot at most at
its end. -/
structure Pipeline.WellFormed (p : Pipeline) : Prop where
  source_head : p.head?.any Stage.isSource = true
  source_only_head : ∀ stage ∈ p.tail, stage.isSource = false
  plot_only_last : ∀ stage ∈ p.dropLast, stage.isPlot = false
  stages : ∀ stage ∈ p, stage.WellFormed

theorem Pipeline.wellFormed_iff {p : Pipeline} :
    p.WellFormed ↔ p.head?.any Stage.isSource = true ∧
      (∀ stage ∈ p.tail, stage.isSource = false) ∧
      (∀ stage ∈ p.dropLast, stage.isPlot = false) ∧ ∀ stage ∈ p, stage.WellFormed :=
  ⟨fun ⟨a, b, c, d⟩ => ⟨a, b, c, d⟩, fun ⟨a, b, c, d⟩ => ⟨a, b, c, d⟩⟩

instance (p : Pipeline) : Decidable p.WellFormed := decidable_of_iff _ p.wellFormed_iff.symm

def Program.WellFormed (p : Program) : Prop := ∀ pipeline ∈ p, Pipeline.WellFormed pipeline

instance (p : Program) : Decidable p.WellFormed :=
  inferInstanceAs (Decidable (∀ pipeline ∈ p, Pipeline.WellFormed pipeline))

/-- A signed integer of 64 bits can hold the bins of the stage. -/
def Stage.BinsFit : Stage → Prop
  | .visualize (.histogram _ bins) => bins ≤ 0x7fffffffffffffff
  | _ => True

/-- Signed integers of 64 bits can hold all bins of the program. -/
def Program.BinsFit (p : Program) : Prop := ∀ pipeline ∈ p, ∀ stage ∈ pipeline, stage.BinsFit

instance : (stage : Stage) → Decidable stage.BinsFit
  | .visualize (.histogram _ bins) => inferInstanceAs (Decidable (bins ≤ 0x7fffffffffffffff))
  | .visualize (.bar ..) | .visualize (.scatter ..) | .load _ | .select _ | .filter _ | .mutate ..
  | .group _ | .summarize _ | .notify _ | .join .. => inferInstanceAs (Decidable True)

instance (p : Program) : Decidable p.BinsFit :=
  inferInstanceAs (Decidable (∀ pipeline ∈ p, ∀ stage ∈ pipeline, stage.BinsFit))

end TablePipeline
