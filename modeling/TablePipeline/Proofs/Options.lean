import TablePipeline.Proofs.Accounting
import TablePipeline.Proofs.Independence
/-!
# Runs under different options

The options that say what is displayed and logged decide about nothing else. Two runs that differ in
them are `Alongside` each other from pipeline to pipeline: they register the same, log the same
warnings and errors, and display the same but for the last tables of completed pipelines
(`Workspace.run_alongside`).
-/

namespace TablePipeline

variable {left right : RunOptions} {env a b : Environment} {done p : Program}
  {unfinished : List Exhibit}

/-! ### What is displayed -/

/-- What a pipeline that runs to its end has to display: what its plots show, and its last table
unless it ends in a plot. -/
structure Showing where
  plots : List Exhibit
  last : Option (List Row)

namespace Showing

/-- What is displayed: the last table only if it is wanted. -/
def under (options : RunOptions) (s : Showing) : List Exhibit :=
  s.plots ++ if options.displayResults then s.last.toList.map .table else []

/-- A run of the stages to their end displays the plots, and the last table is the one that the run
comes to, unless the pipeline ends in a plot. -/
def Of (pipeline : Pipeline) (s : Showing) : Prop :=
  ∃ env env' output, Pipeline.runFrom env Table.empty pipeline = (env', .ok output) ∧
    env'.display = env.display ++ s.plots ∧
    s.last = if Pipeline.endsInPlot pipeline then none else some output.rows

end Showing

/-- A pipeline has one effect under all options wherever its joins find the same tables, except that
its last table may be displayed. -/
theorem Pipeline.run_under (env : Environment) (p : Pipeline) :
    (∃ (writes : List (String × Table)) (showing : Showing), showing.Of p ∧
      ∀ options env', Agree (joined p) env env' →
        p.run options env' = (Effect.on ⟨writes, showing.under options⟩ env', .ok ())) ∨
    ∃ (e : Effect) (cause : Error), ∀ options env', Agree (joined p) env env' →
      p.run options env' = (e.on env', .error cause) := by
  obtain ⟨e, result, -, hrun⟩ := runFrom_local env Table.empty p
  cases result with
  | error cause =>
    refine .inr ⟨e, cause, fun options env' h => ?_⟩
    rw [run, hrun env' h]
  | ok output =>
    refine .inl ⟨e.writes, ⟨e.exhibits, if endsInPlot p then none else some output.rows⟩, ?_,
      fun options env' h => ?_⟩
    · exact ⟨env, _, output, hrun env (.refl ..), rfl, rfl⟩
    · rw [run, hrun env' h]
      unfold Showing.under
      cases endsInPlot p <;> cases options.displayResults <;>
        simp [Effect.on, Environment.showTable]

/-! ### Steps of a run -/

namespace Program

variable {options : RunOptions} {env' : Environment} {pipeline : Pipeline} {n : Nat}

theorem runFrom_cons_of_ok
    (h : pipeline.run options (note options env (title n ++ " started")) = (env', .ok ()))
    (rest : Program) : runFrom options env n (pipeline :: rest)
      = runFrom options (note options env' (title n ++ " finished")) (n + 1) rest := by
  rw [runFrom, h]

theorem runFrom_cons_of_error {cause : Error}
    (h : pipeline.run options (note options env (title n ++ " started")) = (env', .error cause))
    (rest : Program) : runFrom options env n (pipeline :: rest)
      = (env'.write .error (title n ++ ": " ++ cause.logText), .error cause) := by
  rw [runFrom, h]

theorem run_eq (options : RunOptions) (env : Environment) (p : Program) :
    p.run options env = ((runFrom options env 0 p).1,
      (runFrom options env 0 p).2.map fun n => { pipelinesRun := n, strayCount := 0 }) := by
  unfold run
  rcases runFrom options env 0 p with ⟨env', _ | n⟩ <;> rfl

theorem isOk_run (options : RunOptions) (env : Environment) (p : Program) :
    (p.run options env).2.isOk = (runFrom options env 0 p).2.isOk := by
  rw [run_eq]
  cases (runFrom options env 0 p).2 <;> rfl

theorem filter_noted (options : RunOptions) (message : String) :
    (noted options message).filter (·.severity ≠ .info) = [] := by
  unfold noted
  split <;> rfl

end Program

/-! ### Two runs -/

/-- Two environments that were `env` before the pipelines `done` have run in them, each time under
other options, and as much of one more pipeline as displays `unfinished`. They are equal but for
notes in the log and for the last tables of the pipelines. -/
structure Alongside (left right : RunOptions) (env : Environment) (done : Program)
    (unfinished : List Exhibit) (a b : Environment) : Prop where
  catalog : a.catalog = b.catalog
  registry : a.registry = b.registry
  /-- The same warnings and errors are logged in both. -/
  log : ∃ added added', a.log = env.log ++ added ∧ b.log = env.log ++ added' ∧
    added.filter (·.severity ≠ .info) = added'.filter (·.severity ≠ .info)
  /-- Whether its last table is displayed is all that the options decide about a pipeline. -/
  display : ∃ showings, List.Forall₂ Showing.Of done showings ∧
    a.display = env.display ++ showings.flatMap (·.under left) ++ unfinished ∧
    b.display = env.display ++ showings.flatMap (·.under right) ++ unfinished

namespace Alongside

theorem refl (left right : RunOptions) (env : Environment) :
    Alongside left right env [] [] env env where
  catalog := rfl
  registry := rfl
  log := ⟨[], [], by simp⟩
  display := ⟨[], .nil, by simp⟩

theorem agree (h : Alongside left right env done unfinished a b) (names : List String) :
    Agree names a b :=
  ⟨h.catalog.symm, fun _ _ => by rw [h.registry]⟩

/-- More is logged, and in both the same warnings and errors. -/
theorem withLog (h : Alongside left right env done unfinished a b)
    {entries entries' : List LogEntry}
    (hsame : entries.filter (·.severity ≠ .info) = entries'.filter (·.severity ≠ .info)) :
    Alongside left right env done unfinished (a.withLog (a.log ++ entries))
      (b.withLog (b.log ++ entries')) where
  catalog := h.catalog
  registry := h.registry
  log := by
    obtain ⟨added, added', ha, hb, hadded⟩ := h.log
    refine ⟨added ++ entries, added' ++ entries', ?_, ?_, ?_⟩
    · rw [Environment.withLog, ha, List.append_assoc]
    · rw [Environment.withLog, hb, List.append_assoc]
    · rw [List.filter_append, List.filter_append, hadded, hsame]
  display := h.display

theorem write (h : Alongside left right env done unfinished a b) (severity : Severity)
    (message : String) :
    Alongside left right env done unfinished (a.write severity message)
      (b.write severity message) :=
  h.withLog rfl

theorem note (h : Alongside left right env done unfinished a b) (message : String) :
    Alongside left right env done unfinished (Program.note left a message)
      (Program.note right b message) := by
  rw [Program.note_eq, Program.note_eq]
  exact h.withLog (by rw [Program.filter_noted, Program.filter_noted])

/-- The same tables are registered in both environments, and something is displayed. -/
theorem on (h : Alongside left right env done [] a b) (writes : List (String × Table))
    (exhibits : List Exhibit) :
    Alongside left right env done exhibits (Effect.on ⟨writes, exhibits⟩ a)
      (Effect.on ⟨writes, exhibits⟩ b) where
  catalog := h.catalog
  registry := congrArg (·.insertAll writes) h.registry
  log := h.log
  display := by
    obtain ⟨showings, hof, ha, hb⟩ := h.display
    refine ⟨showings, hof, ?_, ?_⟩
    · rw [Effect.on, ha, List.append_nil]
    · rw [Effect.on, hb, List.append_nil]

theorem on_showing (h : Alongside left right env done [] a b) (writes : List (String × Table))
    {pipeline : Pipeline} {showing : Showing} (hof : showing.Of pipeline) :
    Alongside left right env (done ++ [pipeline]) [] (Effect.on ⟨writes, showing.under left⟩ a)
      (Effect.on ⟨writes, showing.under right⟩ b) where
  catalog := h.catalog
  registry := congrArg (·.insertAll writes) h.registry
  log := h.log
  display := by
    obtain ⟨showings, hshowings, ha, hb⟩ := h.display
    refine ⟨showings ++ [showing], List.rel_append hshowings (.cons hof .nil), ?_, ?_⟩
    · rw [Effect.on, ha, List.flatMap_append, List.flatMap_singleton]
      simp only [List.append_nil, List.append_assoc]
    · rw [Effect.on, hb, List.flatMap_append, List.flatMap_singleton]
      simp only [List.append_nil, List.append_assoc]

/-- A pipeline ends in the same way in both runs. -/
theorem pipeline_run (h : Alongside left right env done [] a b) (pipeline : Pipeline) :
    (∃ a' b', pipeline.run left a = (a', .ok ()) ∧ pipeline.run right b = (b', .ok ()) ∧
      Alongside left right env (done ++ [pipeline]) [] a' b') ∨
    ∃ a' b' cause unfinished, pipeline.run left a = (a', .error cause) ∧
      pipeline.run right b = (b', .error cause) ∧
      Alongside left right env done unfinished a' b' := by
  rcases pipeline.run_under a with ⟨writes, showing, hof, hrun⟩ | ⟨e, cause, hrun⟩
  · exact .inl ⟨_, _, hrun left a (.refl ..), hrun right b (h.agree _), h.on_showing writes hof⟩
  · exact .inr ⟨_, _, cause, e.exhibits, hrun left a (.refl ..), hrun right b (h.agree _),
      h.on e.writes e.exhibits⟩

open Program (title)

/-- Pipelines that run alongside each other stop at the same one, if at all. -/
theorem runFrom (h : Alongside left right env done [] a b) (n : Nat) (rest : Program) :
    (Program.runFrom left a n rest).2 = (Program.runFrom right b n rest).2 ∧
    ∃ k unfinished, k ≤ rest.length ∧ (k = rest.length → unfinished = []) ∧
      (∀ m ≤ rest.length, (Program.runFrom left a n (rest.take m)).2.isOk = true ↔ m ≤ k) ∧
      Alongside left right env (done ++ rest.take k) unfinished (Program.runFrom left a n rest).1
        (Program.runFrom right b n rest).1 := by
  -- What has run so far is in `done`: the pipelines to come start alongside each other again.
  induction rest generalizing done a b n with
  | nil =>
    refine ⟨rfl, 0, [], Nat.le_refl 0, fun _ => rfl, fun m hm => ?_, ?_⟩
    · exact iff_of_true (by rw [List.take_nil]; rfl) hm
    · rw [List.take_nil, List.append_nil]
      exact h
  | cons pipeline rest ih =>
    rcases (h.note (title n ++ " started")).pipeline_run pipeline with
      ⟨a', b', ha, hb, hdone⟩ | ⟨a', b', cause, unfinished, ha, hb, hdone⟩
    · obtain ⟨hsame, k, unfinished, hk, hall, hprefix, hrest⟩ :=
        ih (hdone.note (title n ++ " finished")) (n + 1)
      rw [Program.runFrom_cons_of_ok ha, Program.runFrom_cons_of_ok hb]
      refine ⟨hsame, k + 1, unfinished, Nat.succ_le_succ hk, fun h => hall (Nat.succ.inj h),
        fun m hm => ?_, ?_⟩
      · cases m with
        | zero => exact iff_of_true rfl (Nat.zero_le _)
        | succ m =>
          rw [List.take_succ_cons, Program.runFrom_cons_of_ok ha,
            hprefix m (Nat.le_of_succ_le_succ hm)]
          exact Nat.succ_le_succ_iff.symm
      · rw [List.take_succ_cons, List.append_cons]
        exact hrest
    · rw [Program.runFrom_cons_of_error ha, Program.runFrom_cons_of_error hb]
      refine ⟨rfl, 0, unfinished, Nat.zero_le _,
        fun h => absurd h.symm (Nat.succ_ne_zero _), fun m hm => ?_, ?_⟩
      · cases m with
        | zero => exact iff_of_true rfl (Nat.le_refl 0)
        | succ m =>
          rw [List.take_succ_cons, Program.runFrom_cons_of_error ha]
          exact iff_of_false Bool.false_ne_true (Nat.not_succ_le_zero m)
      · rw [List.take_zero, List.append_nil]
        exact hdone.write _ _

end Alongside

/-- Programs that run alongside each other complete the same pipelines and end in the same way. -/
theorem Alongside.run (h : Alongside left right env [] [] a b) (p : Program) :
    (p.run left a).2 = (p.run right b).2 ∧
    ∃ n unfinished, Program.Completes left a p n ∧ Program.Completes right b p n ∧
      (n = p.length → unfinished = []) ∧
      Alongside left right env (p.take n) unfinished (p.run left a).1 (p.run right b).1 := by
  have hresult (q : Program) : (q.run left a).2 = (q.run right b).2 := by
    rw [Program.run_eq, Program.run_eq, (h.runFrom 0 q).1]
  obtain ⟨-, n, unfinished, hn, hall, hprefix, hafter⟩ := h.runFrom 0 p
  have hcompletes : Program.Completes left a p n :=
    ⟨hn, fun m hm => by rw [Program.isOk_run, hprefix m hm]⟩
  refine ⟨hresult p, n, unfinished, hcompletes, ⟨hn, fun m hm => ?_⟩, hall, ?_⟩
  · rw [← hresult, hcompletes.2 m hm]
  · rw [Program.run_eq, Program.run_eq]
    exact hafter

namespace Workspace

open Program (Completes)

/-- Under options that differ in what is displayed and logged, the runs of a program, and those of a
workspace, have equal results, complete the same pipelines and leave environments that differ in
notes of the log and in the last tables of completed pipelines only. -/
theorem run_alongside (left right : RunOptions) (env : Environment) :
    (∀ p : Program, (p.run left env).2 = (p.run right env).2 ∧
      ∃ n unfinished, Completes left env p n ∧ Completes right env p n ∧
        (n = p.length → unfinished = []) ∧
        Alongside left right env (p.take n) unfinished (p.run left env).1 (p.run right env).1) ∧
    ∀ w : Workspace, left.defaultBins = right.defaultBins →
      (w.run left env).2 = (w.run right env).2 ∧
      (∀ cause, w.compile left.defaultBins = .error cause →
        Alongside left right env [] [] (w.run left env).1 (w.run right env).1) ∧
      ∀ c, w.compile left.defaultBins = .ok c →
        ∃ n unfinished, Completes left (c.announce env) c.program n ∧
          Completes right (c.announce env) c.program n ∧
          (n = c.program.length → unfinished = []) ∧
          Alongside left right env (c.program.take n) unfinished (w.run left env).1
            (w.run right env).1 := by
  refine ⟨(Alongside.refl left right env).run, fun w hbins => ?_⟩
  cases hcompile : w.compile left.defaultBins with
  | error cause =>
    have hrun (options : RunOptions) (h : options.defaultBins = left.defaultBins) :
        w.run options env
          = (env.write .error (Error.compile cause).logText, .error (.compile cause)) := by
      rw [run, h, hcompile]
    rw [hrun left rfl, hrun right hbins.symm]
    refine ⟨rfl, fun _ _ => (Alongside.refl left right env).write _ _, fun c hc => ?_⟩
    cases hc
  | ok c =>
    have hright : w.compile right.defaultBins = .ok c := hbins ▸ hcompile
    have hstart : Alongside left right env [] [] (c.announce env) (c.announce env) := by
      rw [c.announce_eq]
      exact (Alongside.refl left right env).withLog rfl
    obtain ⟨hresult, hcourse⟩ := hstart.run c.program
    rw [run_of_compile hcompile, run_of_compile hright, hresult]
    refine ⟨rfl, fun cause hcause => ?_, fun c' hc' => ?_⟩
    · cases hcause
    · obtain rfl := Except.ok.inj hc'
      exact hcourse

/-- A pipeline with a plot on its way, and one that fails after a plot. -/
def plotsOnTheWay : Program :=
  [[.load "double", .visualize (.bar "first" "second"), .notify "one"],
    [.load "double", .visualize (.bar "first" "second"), .group "absent"]]

/-- Progress is logged. -/
def noted : RunOptions := { verbose := true }

/-- Last tables are not displayed. -/
def plotsOnly : RunOptions := { displayResults := false }

/-- Two runs of a program, of which only the first displays a last table, and of a workspace. -/
theorem run_alongside_plotsOnTheWay :
    (plotsOnTheWay.run noted (.fresh Catalog.standard)).2
      = (plotsOnTheWay.run plotsOnly (.fresh Catalog.standard)).2 ∧
    (∃ n unfinished, Completes noted (.fresh Catalog.standard) plotsOnTheWay n ∧
      Alongside noted plotsOnly (.fresh Catalog.standard) (plotsOnTheWay.take n) unfinished
        (plotsOnTheWay.run noted (.fresh Catalog.standard)).1
        (plotsOnTheWay.run plotsOnly (.fresh Catalog.standard)).1) ∧
    (plotsOnTheWay.run noted (.fresh Catalog.standard)).1.display.length = 5 ∧
    (plotsOnTheWay.run plotsOnly (.fresh Catalog.standard)).1.display.length = 4 ∧
    noted.defaultBins = plotsOnly.defaultBins ∧
    (lastPlotFails.run noted (.fresh Catalog.standard)).2
      = (lastPlotFails.run plotsOnly (.fresh Catalog.standard)).2 := by
  obtain ⟨hprogram, hworkspace⟩ := run_alongside noted plotsOnly (.fresh Catalog.standard)
  obtain ⟨hresult, n, unfinished, hcompletes, -, -, halongside⟩ := hprogram plotsOnTheWay
  exact ⟨hresult, ⟨n, unfinished, hcompletes, halongside⟩, rfl, rfl, rfl,
    (hworkspace lastPlotFails rfl).1⟩

end Workspace

end TablePipeline
