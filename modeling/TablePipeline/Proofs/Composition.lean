import TablePipeline.Proofs.Outcome
import TablePipeline.Run
/-!
# Runs in parts

A run takes its pipelines, and each pipeline its stages, from the front. A longer run therefore goes
on where a shorter one ends, unless that fails (`Program.runFrom_append`). `Program.Reaches` says
how far a run gets and `Program.FailsAt` where it ends. No stage looks at the log: what a run does
depends neither on earlier entries nor on where its pipelines are counted from
(`Program.runFrom_withLog`).
-/

namespace TablePipeline

variable {options : RunOptions} {env env' : Environment} {e : Error}

/-! ### Stages -/

/-- The name that the stage registers its table under, if it does. -/
def Stage.notifies? : Stage → Option String
  | .notify name => some name
  | _ => none

open Outcome (bind_eq_ok pure_eq_ok) in
/-- What a stage that succeeds does to its environment. -/
theorem Stage.env_of_run {stage : Stage} {input output : Table}
    (h : stage.run env input = .ok (env', output)) :
    (stage.notifies? = none ∧ stage.isPlot = false ∧ env' = env) ∨
    (∃ name, stage = .notify name ∧ env' = env.register name input.ungrouped) ∨
    (∃ plot spec, stage = .visualize plot ∧ plot.spec input = .ok spec ∧
      env' = (env.showTable input).showPlot spec) := by
  cases stage with
  | load _ | select _ | filter _ | mutate _ _ | group _ | summarize _ =>
    obtain ⟨made, -, h⟩ := bind_eq_ok.mp h
    cases pure_eq_ok.mp h
    exact .inl ⟨rfl, rfl, rfl⟩
  | join leftName leftColumn rightName rightColumn =>
    obtain ⟨left, -, h⟩ := bind_eq_ok.mp h
    obtain ⟨right, -, h⟩ := bind_eq_ok.mp h
    obtain ⟨made, -, h⟩ := bind_eq_ok.mp h
    cases pure_eq_ok.mp h
    exact .inl ⟨rfl, rfl, rfl⟩
  | notify name =>
    cases h
    exact .inr (.inl ⟨name, rfl, rfl⟩)
  | visualize plot =>
    obtain ⟨spec, hspec, h⟩ := bind_eq_ok.mp h
    cases pure_eq_ok.mp h
    exact .inr (.inr ⟨plot, spec, rfl, hspec, rfl⟩)

namespace Pipeline

variable {input output : Table} {stages rest : List Stage}

theorem runFrom_append (env : Environment) (input : Table) (stages rest : List Stage) :
    runFrom env input (stages ++ rest)
      = match runFrom env input stages with
        | (env', .ok output) => runFrom env' output rest
        | (env', .error e) => (env', .error e) := by
  induction stages generalizing env input with
  | nil => rfl
  | cons stage stages ih =>
    rw [List.cons_append, runFrom, runFrom]
    cases stage.run env input with
    | ok made => exact ih made.1 made.2
    | error e => rfl

theorem runFrom_append_of_ok (h : runFrom env input stages = (env', .ok output))
    (rest : List Stage) : runFrom env input (stages ++ rest) = runFrom env' output rest := by
  rw [runFrom_append, h]

/-- The stages after one that fails do not matter. -/
theorem runFrom_fails {stage : Stage} (h : runFrom env input stages = (env', .ok output))
    (hstage : stage.run env' output = .error e) (rest : List Stage) :
    runFrom env input (stages ++ stage :: rest) = (env', .error e) := by
  rw [runFrom_append_of_ok h, runFrom, hstage]

/-- Stages that are run to the end are run to the end of every first part of them. -/
theorem runFrom_prefix (h : runFrom env input (stages ++ rest) = (env', .ok output)) :
    ∃ env₁ mid, runFrom env input stages = (env₁, .ok mid) ∧
      runFrom env₁ mid rest = (env', .ok output) := by
  rw [runFrom_append] at h
  split at h
  · next env₁ mid hstages => exact ⟨env₁, mid, hstages, h⟩
  · cases h

/-- Stages that fail have a first stage that fails. -/
theorem exists_fails (h : runFrom env input stages = (env', .error e)) :
    ∃ before stage after mid, stages = before ++ stage :: after ∧
      runFrom env input before = (env', .ok mid) ∧ stage.run env' mid = .error e := by
  induction stages generalizing env input with
  | nil => cases h
  | cons stage stages ih =>
    rw [runFrom] at h
    split at h
    · next env₁ made hrun =>
      obtain ⟨before, failing, after, mid, rfl, hbefore, hfailing⟩ := ih h
      refine ⟨stage :: before, failing, after, mid, rfl, ?_, hfailing⟩
      rw [runFrom, hrun]
      exact hbefore
    · next e' hrun =>
      cases h
      exact ⟨[], stage, stages, input, rfl, rfl, hrun⟩

/-- A pipeline fails as its stages do. -/
theorem run_eq_error_iff {p : Pipeline} :
    p.run options env = (env', .error e) ↔ runFrom env Table.empty p = (env', .error e) := by
  unfold run
  split
  · next hrun => simp [hrun]
  · next hrun => simp [hrun]

end Pipeline

/-! ### Pipelines -/

namespace Program

variable {p q done : Program} {n m : Nat}

theorem runFrom_append (options : RunOptions) (env : Environment) (n : Nat) (p q : Program) :
    runFrom options env n (p ++ q)
      = match runFrom options env n p with
        | (env', .ok m) => runFrom options env' m q
        | (env', .error e) => (env', .error e) := by
  induction p generalizing env n with
  | nil => rfl
  | cons pipeline p ih =>
    rw [List.cons_append, runFrom, runFrom]
    split
    · exact ih _ _
    · rfl

/-- Pipelines that are run to the end are counted. -/
theorem runFrom_count (h : runFrom options env n p = (env', .ok m)) : m = n + p.length := by
  induction p generalizing env n with
  | nil =>
    cases h
    rfl
  | cons pipeline p ih =>
    rw [runFrom] at h
    split at h
    · rw [ih h, List.length_cons]
      omega
    · cases h

/-- A run that gets to its end gets to the end of every first part. -/
theorem runFrom_prefix (h : runFrom options env n (p ++ q) = (env', .ok m)) :
    ∃ env₁, runFrom options env n p = (env₁, .ok (n + p.length)) ∧
      runFrom options env₁ (n + p.length) q = (env', .ok m) := by
  rw [runFrom_append] at h
  split at h
  · next env₁ k hp =>
    obtain rfl := runFrom_count hp
    exact ⟨env₁, hp, h⟩
  · cases h

theorem run_eq_ok_iff {report : RunReport} :
    p.run options env = (env', .ok report) ↔
      runFrom options env 0 p = (env', .ok p.length) ∧ report = ⟨p.length, 0⟩ := by
  unfold run
  constructor
  · intro h
    split at h
    · next env₁ n hrun =>
      obtain rfl := runFrom_count hrun
      rw [Nat.zero_add] at h hrun
      cases h
      exact ⟨hrun, rfl⟩
    · cases h
  · rintro ⟨hrun, rfl⟩
    rw [hrun]

theorem run_eq_error_iff :
    p.run options env = (env', .error e) ↔ runFrom options env 0 p = (env', .error e) := by
  unfold run
  split
  · next hrun => simp [hrun]
  · next hrun => simp [hrun]

/-- The run of a program gets through the pipelines `done` and the stages `before` of the next one,
and `input` is the table that these leave. -/
def Reaches (options : RunOptions) (env : Environment) (done : Program) (before : List Stage)
    (env' : Environment) (input : Table) : Prop :=
  ∃ env₁ report, done.run options env = (env₁, .ok report) ∧
    Pipeline.runFrom (note options env₁ (title done.length ++ " started")) Table.empty before
      = (env', .ok input)

/-- The run of a program gets through the pipelines `done` and the stages `before` of the next one,
and the stage after them fails. -/
def FailsAt (options : RunOptions) (env : Environment) (done : Program) (before : List Stage)
    (stage : Stage) (env' : Environment) (e : Error) : Prop :=
  ∃ input, Reaches options env done before env' input ∧ stage.run env' input = .error e

variable {before : List Stage} {stage : Stage}

/-- A run that fails at a stage leaves what the stages before it left, and one more log entry. -/
theorem FailsAt.run_eq (h : FailsAt options env done before stage env' e) (after : List Stage)
    (rest : Program) : (done ++ (before ++ stage :: after) :: rest).run options env
      = (env'.write .error (title done.length ++ ": " ++ e.logText), .error e) := by
  obtain ⟨input, ⟨env₁, report, hdone, hbefore⟩, hstage⟩ := h
  have hpipeline : Pipeline.run options (note options env₁ (title done.length ++ " started"))
      (before ++ stage :: after) = (env', .error e) := by
    rw [Pipeline.run, Pipeline.runFrom_fails hbefore hstage after]
  rw [run_eq_error_iff, runFrom_append, (run_eq_ok_iff.mp hdone).1]
  dsimp only
  rw [runFrom, hpipeline]

/-- Pipelines that fail have a first one that fails. -/
theorem exists_fails (h : runFrom options env n p = (env', .error e)) :
    ∃ done pipeline rest env₁ env₂, p = done ++ pipeline :: rest ∧
      runFrom options env n done = (env₁, .ok (n + done.length)) ∧
      Pipeline.run options (note options env₁ (title (n + done.length) ++ " started")) pipeline
        = (env₂, .error e) := by
  induction p generalizing env n with
  | nil => cases h
  | cons first p ih =>
    rw [runFrom] at h
    split at h
    · next env₀ hrun =>
      obtain ⟨done, pipeline, rest, env₁, env₂, rfl, hdone, hpipeline⟩ := ih h
      rw [show n + 1 + done.length = n + (first :: done).length by
        rw [List.length_cons]; omega] at hdone hpipeline
      refine ⟨first :: done, pipeline, rest, env₁, env₂, rfl, ?_, hpipeline⟩
      rw [runFrom, hrun]
      exact hdone
    · next env₂ e' hrun =>
      cases h
      exact ⟨[], first, p, env, env₂, rfl, rfl, hrun⟩

/-- A run that fails does so at a first stage that fails. -/
theorem exists_failsAt (h : p.run options env = (env', .error e)) :
    ∃ done before stage after rest env₁, p = done ++ (before ++ stage :: after) :: rest ∧
      FailsAt options env done before stage env₁ e := by
  obtain ⟨done, pipeline, rest, env₁, env₂, rfl, hdone, hpipeline⟩ :=
    exists_fails (run_eq_error_iff.mp h)
  rw [Nat.zero_add] at hdone hpipeline
  obtain ⟨before, stage, after, input, rfl, hbefore, hstage⟩ :=
    Pipeline.exists_fails (Pipeline.run_eq_error_iff.mp hpipeline)
  have hrun : Program.run options env done = (env₁, .ok ⟨done.length, 0⟩) :=
    run_eq_ok_iff.mpr ⟨hdone, rfl⟩
  exact ⟨done, before, stage, after, rest, env₂, rfl, input, ⟨env₁, _, hrun, hbefore⟩, hstage⟩

/-- Exactly the first `n` pipelines run to their ends. -/
def Completes (options : RunOptions) (env : Environment) (p : Program) (n : Nat) : Prop :=
  n ≤ p.length ∧ ∀ m ≤ p.length, (run options env (p.take m)).2.isOk = true ↔ m ≤ n

theorem run_append_of_error (h : p.run options env = (env', .error e)) (q : Program) :
    (p ++ q).run options env = (env', .error e) := by
  rw [run_eq_error_iff] at h ⊢
  rw [runFrom_append, h]

theorem run_isOk_of_append (h : ((p ++ q).run options env).2.isOk = true) :
    (p.run options env).2.isOk = true := by
  rcases hp : p.run options env with ⟨env₁, e | report⟩
  · rw [run_append_of_error hp q] at h
    exact h
  · rfl

theorem run_take_isOk (h : (p.run options env).2.isOk = true) (m : Nat) :
    (run options env (p.take m)).2.isOk = true := by
  rw [← List.take_append_drop m p] at h
  exact run_isOk_of_append h

theorem completes_of_run {report : RunReport} (h : p.run options env = (env', .ok report)) :
    Completes options env p p.length := by
  have hok : (p.run options env).2.isOk = true := by rw [h]; rfl
  exact ⟨Nat.le_refl _, fun m hm => iff_of_true (run_take_isOk hok m) hm⟩

/-- A run that fails completes the pipelines before the one that fails. -/
theorem FailsAt.completes (h : FailsAt options env done before stage env' e) (after : List Stage)
    (rest : Program) :
    Completes options env (done ++ (before ++ stage :: after) :: rest) done.length := by
  have hdone : (done.run options env).2.isOk = true := by
    obtain ⟨input, ⟨env₁, report, hrun, -⟩, -⟩ := h
    rw [hrun]
    rfl
  refine ⟨by simp, fun m _ => ?_⟩
  by_cases hm : m ≤ done.length
  · rw [List.take_append_of_le_length hm]
    exact iff_of_true (run_take_isOk hdone m) hm
  · have hsub : m - done.length = m - done.length - 1 + 1 := by omega
    rw [List.take_append, List.take_of_length_le (by omega), hsub, List.take_succ_cons,
      h.run_eq after]
    exact iff_of_false nofun hm

theorem Completes.run_take (h : Completes options env p n) :
    ∃ env₁, run options env (p.take n) = (env₁, .ok ⟨n, 0⟩) := by
  have hok := (h.2 n h.1).mpr (Nat.le_refl n)
  rcases hrun : run options env (p.take n) with ⟨env₁, e | report⟩
  · rw [hrun] at hok
    cases hok
  · obtain ⟨-, rfl⟩ := run_eq_ok_iff.mp hrun
    rw [List.length_take_of_le h.1]
    exact ⟨env₁, rfl⟩

end Program

/-! ### The log is not looked at -/

/-- The environment with another log. -/
def Environment.withLog (env : Environment) (log : List LogEntry) : Environment := { env with log }

theorem Stage.run_withLog (env : Environment) (log : List LogEntry) (input : Table)
    (stage : Stage) :
    stage.run (env.withLog log) input
      = (fun made => (made.1.withLog log, made.2)) <$> stage.run env input := by
  cases stage with
  | notify name => rfl
  | select _ | filter _ | mutate _ _ | group _ | summarize _ =>
    simp only [Stage.run, map_bind, map_pure]
  | load _ | join _ _ _ _ | visualize _ =>
    simp only [Stage.run, map_bind, map_pure]
    rfl

theorem Pipeline.runFrom_withLog (env : Environment) (log : List LogEntry) (input : Table)
    (stages : List Stage) :
    runFrom (env.withLog log) input stages
      = ((runFrom env input stages).1.withLog log, (runFrom env input stages).2) := by
  induction stages generalizing env input with
  | nil => rfl
  | cons stage rest ih =>
    rw [runFrom, runFrom, Stage.run_withLog]
    cases stage.run env input with
    | ok made => exact ih made.1 made.2
    | error e => rfl

theorem Pipeline.run_withLog (env : Environment) (log : List LogEntry) (p : Pipeline) :
    p.run options (env.withLog log)
      = ((p.run options env).1.withLog log, (p.run options env).2) := by
  rw [run, run, runFrom_withLog]
  rcases runFrom env Table.empty p with ⟨env₁, _ | output⟩
  · rfl
  · dsimp only
    split <;> rfl

namespace Program

/-- How the log calls a pipeline. -/
theorem title_eq (n : Nat) : title n = "pipeline " ++ toString n := rfl

/-- What the log says about a pipeline of a run. -/
inductive Remark
  | started (index : Nat)
  | finished (index : Nat)
  | failed (index : Nat) (cause : Error)

namespace Remark

/-- The log entry of a remark, where the pipelines of the run are counted from `first`. -/
def entry (first : Nat) : Remark → LogEntry
  | started index => ⟨.info, "pipeline " ++ toString (first + index) ++ " started"⟩
  | finished index => ⟨.info, "pipeline " ++ toString (first + index) ++ " finished"⟩
  | failed index cause =>
    ⟨.error, "pipeline " ++ toString (first + index) ++ ": " ++ cause.logText⟩

/-- The same remark about the pipeline after it. -/
def next : Remark → Remark
  | started index => started (index + 1)
  | finished index => finished (index + 1)
  | failed index cause => failed (index + 1) cause

theorem entry_next (first : Nat) (r : Remark) : r.next.entry first = r.entry (first + 1) := by
  cases r <;> simp only [next, entry, Nat.add_assoc, Nat.add_comm 1]

/-- Remarks that are made on request only. -/
def ifVerbose (options : RunOptions) (r : Remark) : List Remark :=
  if options.verbose then [r] else []

end Remark

theorem note_withLog (env : Environment) (log : List LogEntry) {message : String} (first : Nat)
    (r : Remark) (h : r.entry first = ⟨.info, message⟩) :
    note options (env.withLog log) message
      = env.withLog (log ++ (r.ifVerbose options).map (Remark.entry first)) := by
  unfold note Remark.ifVerbose
  split
  · rw [List.map_singleton, h]
    rfl
  · rw [List.map_nil, List.append_nil]

theorem note_started_withLog (env : Environment) (log : List LogEntry) (first : Nat) :
    note options (env.withLog log) (title first ++ " started")
      = env.withLog (log ++ ((Remark.started 0).ifVerbose options).map (Remark.entry first)) :=
  note_withLog env log first (.started 0) rfl

theorem note_finished_withLog (env : Environment) (log : List LogEntry) (first : Nat) :
    note options (env.withLog log) (title first ++ " finished")
      = env.withLog (log ++ ((Remark.finished 0).ifVerbose options).map (Remark.entry first)) :=
  note_withLog env log first (.finished 0) rfl

/-- What a run does and what it logs, up to the number of its first pipeline, depend neither on that
number nor on the log it finds. -/
theorem runFrom_withLog (options : RunOptions) (env : Environment) (p : Program) :
    ∃ (after : Environment) (result : Except Error Unit) (remarks : List Remark),
      ∀ (log : List LogEntry) (first : Nat), runFrom options (env.withLog log) first p
        = (after.withLog (log ++ remarks.map (Remark.entry first)),
            result.map fun _ => first + p.length) := by
  induction p generalizing env with
  | nil => exact ⟨env, .ok (), [], fun log first => by rw [List.map_nil, List.append_nil]; rfl⟩
  | cons pipeline p ih =>
    have hstart (log : List LogEntry) (first : Nat) :
        Pipeline.run options (note options (env.withLog log) (title first ++ " started")) pipeline
          = ((pipeline.run options env).1.withLog
              (log ++ ((Remark.started 0).ifVerbose options).map (Remark.entry first)),
              (pipeline.run options env).2) := by
      rw [note_started_withLog, Pipeline.run_withLog]
    rcases hrun : pipeline.run options env with ⟨env₁, e | _⟩
    · refine ⟨env₁, .error e, (Remark.started 0).ifVerbose options ++ [.failed 0 e],
        fun log first => ?_⟩
      rw [runFrom, hstart, hrun, List.map_append, ← List.append_assoc]
      rfl
    · obtain ⟨after, result, remarks, hrest⟩ := ih env₁
      refine ⟨after, result, (Remark.started 0).ifVerbose options
        ++ (Remark.finished 0).ifVerbose options ++ remarks.map Remark.next, fun log first => ?_⟩
      have hnext : (remarks.map Remark.next).map (Remark.entry first)
          = remarks.map (Remark.entry (first + 1)) := by
        rw [List.map_map]
        exact List.map_congr_left fun r _ => r.entry_next first
      rw [runFrom, hstart, hrun]
      dsimp only
      rw [note_finished_withLog, hrest, List.map_append, List.map_append, hnext, List.append_assoc,
        List.append_assoc, List.append_assoc, List.length_cons, Nat.add_assoc first,
        Nat.add_comm 1]

end Program

end TablePipeline
