import TablePipeline.Proofs.Compile
import TablePipeline.Proofs.Composition
import TablePipeline.Proofs.Datasets
/-!
# What a run displays

Only plots and the ends of pipelines display something. Where a plot can only be the last stage of
a pipeline, a pipeline therefore displays either all that it has to display or nothing at all, and
a run displays what its completed pipelines do (`Workspace.display_of_compile`).
-/

namespace TablePipeline

variable {options : RunOptions} {env env' : Environment} {e : Error}

/-! ### The data of a plot -/

open Outcome (bind_eq_ok pure_eq_ok)

/-- The member of an object that has the given name. -/
def Json.member? (name : String) : Json → Option Json
  | .object members => members.lookup name
  | _ => none

/-- The rows that a plot hands on. -/
def PlotSpec.values? (spec : PlotSpec) : Option Json := do
  (← spec.toJson.member? "data").member? "values"

theorem PlotSpec.values?_eq (spec : PlotSpec) :
    spec.values? = some (.array (spec.rows.map Row.toJson)) := by
  simp only [values?, toJson, Json.record, Json.member?, lookup_sortByName]
  rfl

/-- A plot is drawn of all the rows of its table. -/
theorem Plot.rows_of_spec {plot : Plot} {t : Table} {spec : PlotSpec}
    (h : plot.spec t = .ok spec) : spec.rows = t.rows := by
  cases plot with
  | histogram column bins =>
    change histogramSpec t column bins = .ok spec at h
    unfold histogramSpec at h
    by_cases hzero : bins = 0
    · rw [if_pos hzero] at h
      cases h
    · rw [if_neg hzero] at h
      obtain ⟨-, -, h⟩ := bind_eq_ok.mp h
      obtain ⟨cells, -, h⟩ := bind_eq_ok.mp h
      obtain ⟨extent, -, h⟩ := bind_eq_ok.mp h
      rw [← pure_eq_ok.mp h]
  | bar x y =>
    obtain ⟨-, -, h⟩ := bind_eq_ok.mp h
    obtain ⟨-, -, h⟩ := bind_eq_ok.mp h
    rw [← pure_eq_ok.mp h]
  | scatter x y color =>
    obtain ⟨-, -, h⟩ := bind_eq_ok.mp h
    obtain ⟨-, -, h⟩ := bind_eq_ok.mp h
    obtain ⟨-, -, h⟩ := bind_eq_ok.mp h
    rw [← pure_eq_ok.mp h]

/-! ### Pipelines -/

theorem Stage.display_of_run {stage : Stage} {input output : Table} (hplot : stage.isPlot = false)
    (h : stage.run env input = .ok (env', output)) : env'.display = env.display := by
  rcases Stage.env_of_run h with ⟨-, -, rfl⟩ | ⟨name, rfl, rfl⟩ | ⟨plot, spec, rfl, -, -⟩
  · rfl
  · rfl
  · cases hplot

namespace Pipeline

variable {p : Pipeline}

/-- Plots come last. -/
def PlotsLast (p : Pipeline) : Prop := ∀ stage ∈ p.dropLast, stage.isPlot = false

/-- Without plots nothing is displayed before the end of the pipeline. -/
theorem display_runFrom {input : Table} {stages : List Stage}
    (hplots : ∀ stage ∈ stages, stage.isPlot = false) :
    (runFrom env input stages).1.display = env.display := by
  induction stages generalizing env input with
  | nil => rfl
  | cons stage rest ih =>
    obtain ⟨hstage, hrest⟩ := List.forall_mem_cons.mp hplots
    rw [runFrom]
    split
    · next env₁ made hrun => rw [ih hrest, Stage.display_of_run hstage hrun]
    · rfl

/-- A pipeline that fails displays nothing. -/
theorem display_of_error (hplots : p.PlotsLast) (h : p.run options env = (env', .error e)) :
    env'.display = env.display := by
  obtain ⟨before, stage, after, mid, rfl, hbefore, -⟩ := exists_fails (run_eq_error_iff.mp h)
  rw [PlotsLast, List.dropLast_append_cons] at hplots
  have hnone : (runFrom env Table.empty before).1.display = env.display :=
    display_runFrom fun stage hstage => hplots stage (List.mem_append_left _ hstage)
  rwa [hbefore] at hnone

/-- What a pipeline displays in the environment in which it is run to its end. The data of a plot are
an array with an object for each row of its table. -/
inductive Shows (options : RunOptions) (env : Environment) : Pipeline → List Exhibit → Prop
  | plot {before : List Stage} {plot : Plot} {env' : Environment} {input : Table} {spec : PlotSpec}
      {items : List Json} (reached : runFrom env Table.empty before = (env', .ok input))
      (drawn : plot.spec input = .ok spec) (values : spec.values? = some (.array items))
      (rows : List.Forall₂ Row.WrittenAs input.rows items) :
      Shows options env (before ++ [.visualize plot]) [.table input.rows, .plot spec]
  | table {p : Pipeline} {env' : Environment} {output : Table}
      (plain : ∀ plot, p.getLast? ≠ some (.visualize plot))
      (wanted : options.displayResults = true)
      (reached : runFrom env Table.empty p = (env', .ok output)) :
      Shows options env p [.table output.rows]
  | nothing {p : Pipeline} (plain : ∀ plot, p.getLast? ≠ some (.visualize plot))
      (unwanted : options.displayResults = false) : Shows options env p []

theorem last_of_endsInPlot (h : p.endsInPlot = false) (plot : Plot) :
    p.getLast? ≠ some (.visualize plot) := by
  intro hlast
  rw [endsInPlot, hlast] at h
  cases h

theorem endsInPlot_append_singleton (before : List Stage) (stage : Stage) :
    endsInPlot (before ++ [stage]) = stage.isPlot := by
  rw [endsInPlot, List.getLast?_concat, Option.any_some]

theorem plots_of_plain (hplots : p.PlotsLast) (hplain : p.endsInPlot = false) :
    ∀ stage ∈ p, stage.isPlot = false := by
  induction p using List.reverseRecOn with
  | nil => exact nofun
  | append_singleton before last _ =>
    rw [endsInPlot_append_singleton] at hplain
    rw [PlotsLast, List.dropLast_concat] at hplots
    simpa [or_imp, forall_and] using ⟨hplots, hplain⟩

/-- A pipeline that is run to its end adds what it has to display, after all else. -/
theorem display_of_ok (hplots : p.PlotsLast) (h : p.run options env = (env', .ok ())) :
    ∃ exhibits, Shows options env p exhibits ∧ env'.display = env.display ++ exhibits := by
  unfold run at h
  split at h
  case h_2 => cases h
  next env₁ output hstages =>
  obtain ⟨rfl, -⟩ := Prod.mk.inj h
  cases hplain : p.endsInPlot with
  | true =>
    obtain ⟨before, last, rfl⟩ : ∃ before last, p = before ++ [last] := by
      induction p using List.reverseRecOn with
      | nil => cases hplain
      | append_singleton before last _ => exact ⟨before, last, rfl⟩
    rw [endsInPlot_append_singleton] at hplain
    rw [PlotsLast, List.dropLast_concat] at hplots
    obtain ⟨env₂, input, hbefore, hlast⟩ := runFrom_prefix hstages
    have hnone : (runFrom env Table.empty before).1.display = env.display := display_runFrom hplots
    rw [hbefore] at hnone
    rw [runFrom] at hlast
    split at hlast
    case h_2 => cases hlast
    next env₃ made hrun =>
    cases hlast
    rcases Stage.env_of_run hrun with ⟨-, hno, -⟩ | ⟨name, rfl, -⟩ | ⟨plot, spec, rfl, hspec, rfl⟩
    · rw [hplain] at hno
      cases hno
    · cases hplain
    · refine ⟨[.table input.rows, .plot spec], .plot hbefore hspec spec.values?_eq ?_, ?_⟩
      · rw [Plot.rows_of_spec hspec]
        exact Row.forall₂_writtenAs input.rows
      · rw [← hnone]
        simp [Environment.showTable, Environment.showPlot]
  | false =>
    have hnone : (runFrom env Table.empty p).1.display = env.display :=
      display_runFrom (plots_of_plain hplots hplain)
    rw [hstages] at hnone
    rw [← hnone]
    cases hwanted : options.displayResults with
    | true =>
      refine ⟨[.table output.rows], .table (last_of_endsInPlot hplain) hwanted hstages, ?_⟩
      simp [Environment.showTable]
    | false =>
      refine ⟨[], .nothing (last_of_endsInPlot hplain) hwanted, ?_⟩
      simp

end Pipeline

/-! ### Programs -/

namespace Program

variable {p : Program} {n : Nat}

@[simp]
theorem display_note (message : String) : (note options env message).display = env.display := by
  unfold note
  split <;> rfl

/-- What the pipelines of a program display one after the other, where each is run to its end. -/
inductive Displays (options : RunOptions) (env : Environment) : Program → List Exhibit → Prop
  | start : Displays options env [] []
  | next {done : Program} {pipeline : Pipeline} {env₁ : Environment} {report : RunReport}
      {earlier exhibits : List Exhibit} (before : Displays options env done earlier)
      (completed : run options env done = (env₁, .ok report))
      (shows :
        pipeline.Shows options (note options env₁ (title done.length ++ " started")) exhibits) :
      Displays options env (done ++ [pipeline]) (earlier ++ exhibits)

theorem display_of_ok (hplots : ∀ pipeline ∈ p, Pipeline.PlotsLast pipeline) {report : RunReport}
    (h : run options env p = (env', .ok report)) :
    ∃ exhibits, Displays options env p exhibits ∧ env'.display = env.display ++ exhibits := by
  -- What the last pipeline displays depends on the pipelines before it.
  induction p using List.reverseRecOn generalizing env' report with
  | nil =>
    cases h
    exact ⟨[], .start, (List.append_nil _).symm⟩
  | append_singleton done pipeline ih =>
    obtain ⟨env₁, hdone, hlast⟩ := runFrom_prefix (run_eq_ok_iff.mp h).1
    rw [Nat.zero_add] at hdone hlast
    have hcompleted : run options env done = (env₁, .ok ⟨done.length, 0⟩) :=
      run_eq_ok_iff.mpr ⟨hdone, rfl⟩
    obtain ⟨earlier, hearlier, heq⟩ :=
      ih (fun q hq => hplots q (List.mem_append_left _ hq)) hcompleted
    rw [runFrom] at hlast
    split at hlast
    case h_2 => cases hlast
    next env₂ hpipeline =>
    obtain ⟨exhibits, hshows, hadded⟩ :=
      Pipeline.display_of_ok (hplots pipeline (by simp)) hpipeline
    obtain ⟨rfl, -⟩ := Prod.mk.inj hlast
    refine ⟨earlier ++ exhibits, .next hearlier hcompleted hshows, ?_⟩
    rw [display_note, hadded, display_note, heq, List.append_assoc]

/-- A run displays what its completed pipelines do, and nothing else. -/
theorem display_of_run (hplots : ∀ pipeline ∈ p, Pipeline.PlotsLast pipeline) :
    ∃ n exhibits, Completes options env p n ∧ Displays options env (p.take n) exhibits ∧
      (p.run options env).1.display = env.display ++ exhibits := by
  rcases hrun : p.run options env with ⟨env', e | report⟩
  · obtain ⟨done, before, stage, after, rest, env₁, rfl, hfails⟩ := exists_failsAt hrun
    obtain ⟨rfl, -⟩ := Prod.mk.inj ((hfails.run_eq after rest).symm.trans hrun)
    have hcompletes := hfails.completes after rest
    obtain ⟨input, ⟨env₂, report, hdone, hbefore⟩, -⟩ := hfails
    obtain ⟨exhibits, hdisplays, heq⟩ :=
      display_of_ok (fun q hq => hplots q (List.mem_append_left _ hq)) hdone
    refine ⟨done.length, exhibits, hcompletes, by rwa [List.take_left], ?_⟩
    have hlast := hplots (before ++ stage :: after) (by simp)
    rw [Pipeline.PlotsLast, List.dropLast_append_cons] at hlast
    have hnone :
        (Pipeline.runFrom (note options env₂ (title done.length ++ " started")) Table.empty
          before).1.display = (note options env₂ (title done.length ++ " started")).display :=
      Pipeline.display_runFrom fun s hs => hlast s (List.mem_append_left _ hs)
    rw [hbefore, display_note, heq] at hnone
    exact hnone
  · obtain ⟨exhibits, hdisplays, heq⟩ := display_of_ok hplots hrun
    exact ⟨p.length, exhibits, completes_of_run hrun, by rwa [List.take_length], heq⟩

end Program

/-! ### Workspaces -/

/-- The environment in which the program of a workspace is run: stray stacks are logged. -/
def Compilation.announce (c : Compilation) (env : Environment) : Environment :=
  if 0 < c.strayCount then env.write .warn (toString c.strayCount ++ " stray stacks found") else env

namespace Workspace

variable {w : Workspace} {c : Compilation}

/-- The run of a workspace that compiles is that of its program, with the stray stacks counted. -/
theorem run_of_compile (h : w.compile options.defaultBins = .ok c) :
    w.run options env
      = ((c.program.run options (c.announce env)).1,
          (c.program.run options (c.announce env)).2.map fun report =>
            { report with strayCount := c.strayCount }) := by
  rw [run, h]
  dsimp only
  unfold Compilation.announce
  generalize c.program.run options _ = result
  rcases result with ⟨env₁, _ | report⟩ <;> rfl

open Program

/-- The run of a workspace that compiles displays, in order, what the pipelines display that are run
to their ends, and a pipeline that fails displays nothing. -/
theorem display_of_compile (h : w.compile options.defaultBins = .ok c) (env : Environment) :
    (∃ n exhibits, Completes options (c.announce env) c.program n ∧
      Displays options (c.announce env) (c.program.take n) exhibits ∧
      (w.run options env).1.display = env.display ++ exhibits) ∧
    ∀ pipeline ∈ c.program, ∀ env₁ env' e, Pipeline.run options env₁ pipeline = (env', .error e) →
      env'.display = env₁.display := by
  have hplots (pipeline : Pipeline) (hpipeline : pipeline ∈ c.program) : pipeline.PlotsLast :=
    (compile_wellFormed h pipeline hpipeline).plot_only_last
  refine ⟨?_, fun pipeline hpipeline env₁ env' e hrun =>
    Pipeline.display_of_error (hplots pipeline hpipeline) hrun⟩
  have hannounce : (c.announce env).display = env.display := by
    unfold Compilation.announce
    split <;> rfl
  obtain ⟨n, exhibits, hcompletes, hdisplays, heq⟩ : ∃ n exhibits,
      Completes options (c.announce env) c.program n ∧
        Displays options (c.announce env) (c.program.take n) exhibits ∧
        (c.program.run options (c.announce env)).1.display
          = (c.announce env).display ++ exhibits :=
    Program.display_of_run hplots
  refine ⟨n, exhibits, hcompletes, hdisplays, ?_⟩
  rw [run_of_compile h, heq, hannounce]

/-- A table, a plot of it, and a plot of a column that it does not have. -/
def lastPlotFails : Workspace :=
  .ofChains
    [[.ofFields "data_double" []],
      [.ofFields "data_double" [],
        .ofFields "ggplot_bar" [("X_axis", .text "first"), ("Y_axis", .text "second")]],
      [.ofFields "data_double" [], .ofFields "ggplot_hist" [("Column", .text "absent")]]]

/-- The pipelines of `lastPlotFails`. -/
def lastPlotFailsProgram : Program :=
  [[.load "double"], [.load "double", .visualize (.bar "first" "second")],
    [.load "double", .visualize (.histogram "absent" 10)]]

/-- The rows of the table. -/
def doubleRows : List Row :=
  [.ofList [("first", .int 1), ("second", .int 100)],
    .ofList [("first", .int 2), ("second", .int 200)]]

/-- The first two pipelines run to their ends. They display the table twice, and the plot once with
the rows of the table as its data. -/
theorem lastPlotFails_display :
    lastPlotFails.compile standardBins = .ok { program := lastPlotFailsProgram, strayCount := 0 } ∧
    Completes {} (.fresh Catalog.standard) lastPlotFailsProgram 2 ∧
    Displays {} (.fresh Catalog.standard) (lastPlotFailsProgram.take 2)
      [.table doubleRows, .table doubleRows, .plot ⟨doubleRows, .bar "first" "second"⟩] ∧
    (lastPlotFails.run {} (.fresh Catalog.standard)).1.display
      = [.table doubleRows, .table doubleRows, .plot ⟨doubleRows, .bar "first" "second"⟩] ∧
    (lastPlotFails.run { displayResults := false } (.fresh Catalog.standard)).1.display
      = [.table doubleRows, .plot ⟨doubleRows, .bar "first" "second"⟩] ∧
    PlotSpec.toJson ⟨doubleRows, .bar "first" "second"⟩ = .object
      [("data", .object [("values", .array
        [.object [("first", .number (.unsigned 1)), ("second", .number (.unsigned 100))],
          .object [("first", .number (.unsigned 2)), ("second", .number (.unsigned 200))]])]),
        ("encoding", .object
          [("x", .object [("field", .string "first"), ("type", .string "nominal")]),
            ("y", .object [("field", .string "second"), ("type", .string "quantitative")])]),
        ("mark", .string "bar")] := by
  have hcompile : lastPlotFails.compile ({} : RunOptions).defaultBins
      = .ok { program := lastPlotFailsProgram, strayCount := 0 } := rfl
  obtain ⟨⟨n, exhibits, hcompletes, hdisplays, heq⟩, -⟩ :=
    display_of_compile hcompile (.fresh Catalog.standard)
  obtain rfl : n = 2 := by
    have hsecond : 2 ≤ n := (hcompletes.2 2 (by decide)).mp rfl
    have hthird : ¬ 3 ≤ n := fun h => nomatch (hcompletes.2 3 (by decide)).mpr h
    omega
  cases heq
  exact ⟨hcompile, hcompletes, hdisplays, rfl, rfl, rfl⟩

end Workspace

end TablePipeline
