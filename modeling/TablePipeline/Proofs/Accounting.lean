import TablePipeline.Proofs.Display
/-!
# What a run logs

The log only grows, and what a run adds to it tells how the run ends: it has an error as its last
entry if and only if the run fails (`Workspace.log_of_run`). `Workspace.Accounts` lists the entries.
-/

namespace TablePipeline

variable {options : RunOptions} {env env' : Environment}

theorem Error.logText_eq (e : Error) : e.logText = "[" ++ e.code ++ "] " ++ e.message := by
  simp only [logText, withCode]
  rfl

/-- No entry is an error, but for the last one if the run has failed. -/
def EndsAs (ok : Bool) (entries : List LogEntry) : Prop :=
  ∃ earlier, (∀ entry ∈ earlier, entry.severity ≠ .error) ∧
    (ok = true ∧ entries = earlier ∨
      ok = false ∧ ∃ last, last.severity = .error ∧ entries = earlier ++ [last])

namespace EndsAs

variable {ok : Bool} {entries : List LogEntry}

theorem append_left (h : EndsAs ok entries) {front : List LogEntry}
    (hfront : ∀ entry ∈ front, entry.severity ≠ .error) : EndsAs ok (front ++ entries) := by
  obtain ⟨earlier, hearlier, h⟩ := h
  refine ⟨front ++ earlier, List.forall_mem_append.mpr ⟨hfront, hearlier⟩, ?_⟩
  rcases h with ⟨hok, rfl⟩ | ⟨hok, last, hlast, rfl⟩
  · exact .inl ⟨hok, rfl⟩
  · exact .inr ⟨hok, last, hlast, (List.append_assoc ..).symm⟩

theorem no_error_iff (h : EndsAs ok entries) :
    ok = true ↔ ∀ entry ∈ entries, entry.severity ≠ .error := by
  obtain ⟨earlier, hearlier, ⟨rfl, rfl⟩ | ⟨rfl, last, hlast, rfl⟩⟩ := h
  · exact iff_of_true rfl hearlier
  · exact iff_of_false Bool.false_ne_true fun hall => hall last (by simp) hlast

theorem last_error_iff (h : EndsAs ok entries) :
    ok = false ↔ ∃ earlier last, entries = earlier ++ [last] ∧ last.severity = .error ∧
      ∀ entry ∈ earlier, entry.severity ≠ .error := by
  constructor
  · rintro rfl
    obtain ⟨earlier, hearlier, ⟨⟨⟩, -⟩ | ⟨-, last, hlast, rfl⟩⟩ := h
    exact ⟨earlier, last, rfl, hlast, hearlier⟩
  · rintro ⟨earlier, last, rfl, hlast, -⟩
    exact Bool.eq_false_iff.mpr fun hok => h.no_error_iff.mp hok last (by simp) hlast

end EndsAs

namespace Pipeline

/-- Stages log nothing. -/
theorem log_runFrom (env : Environment) (input : Table) (stages : List Stage) :
    (runFrom env input stages).1.log = env.log := by
  have hrun : runFrom (env.withLog env.log) input stages = _ :=
    runFrom_withLog env env.log input stages
  exact congrArg (·.1.log) hrun

theorem log_run (options : RunOptions) (env : Environment) (p : Pipeline) :
    (p.run options env).1.log = env.log := by
  have hrun : p.run options (env.withLog env.log) = _ := run_withLog env env.log p
  exact congrArg (·.1.log) hrun

end Pipeline

/-! ### Programs -/

namespace Program

variable {p done : Program} {before : List Stage} {stage : Stage} {e : Error}

/-- What is logged on request only. -/
def noted (options : RunOptions) (message : String) : List LogEntry :=
  if options.verbose then [⟨.info, message⟩] else []

/-- What is logged of the first `n` pipelines if they run to their ends. -/
def progress (options : RunOptions) (n : Nat) : List LogEntry :=
  (List.range n).flatMap fun i =>
    noted options ("pipeline " ++ toString i ++ " started")
      ++ noted options ("pipeline " ++ toString i ++ " finished")

theorem note_eq (options : RunOptions) (env : Environment) (message : String) :
    note options env message = env.withLog (env.log ++ noted options message) := by
  unfold note noted
  split
  · rfl
  · rw [List.append_nil]
    rfl

theorem log_note (env : Environment) (message : String) :
    (note options env message).log = env.log ++ noted options message := by
  rw [note_eq]
  rfl

theorem progress_succ (n : Nat) :
    progress options (n + 1) = progress options n
      ++ (noted options ("pipeline " ++ toString n ++ " started")
        ++ noted options ("pipeline " ++ toString n ++ " finished")) := by
  rw [progress, List.range_succ, List.flatMap_append, List.flatMap_singleton]
  rfl

theorem log_of_ok {report : RunReport} (h : p.run options env = (env', .ok report)) :
    env'.log = env.log ++ progress options p.length := by
  induction p using List.reverseRecOn generalizing env' report with
  | nil =>
    cases h
    exact (List.append_nil _).symm
  | append_singleton done pipeline ih =>
    obtain ⟨env₁, hdone, hlast⟩ := runFrom_prefix (run_eq_ok_iff.mp h).1
    rw [Nat.zero_add] at hdone hlast
    have hlog := Pipeline.log_run options (note options env₁ (title done.length ++ " started"))
      pipeline
    rw [runFrom] at hlast
    split at hlast
    case h_2 => cases hlast
    next env₂ hpipeline =>
    rw [hpipeline] at hlog
    obtain ⟨rfl, -⟩ := Prod.mk.inj hlast
    change env₂.log = _ at hlog
    rw [log_note, hlog, log_note, ih (run_eq_ok_iff.mpr ⟨hdone, rfl⟩), List.length_append,
      List.length_singleton, progress_succ, title_eq, List.append_assoc, List.append_assoc]

/-- Up to the stage that fails, the pipelines before are logged and that this one was started. -/
theorem FailsAt.log_eq (h : FailsAt options env done before stage env' e) :
    env'.log = env.log ++ progress options done.length
      ++ noted options ("pipeline " ++ toString done.length ++ " started") := by
  obtain ⟨input, ⟨env₁, report, hdone, hbefore⟩, -⟩ := h
  have hlog := Pipeline.log_runFrom (note options env₁ (title done.length ++ " started"))
    Table.empty before
  rw [hbefore, log_note, log_of_ok hdone, title_eq] at hlog
  exact hlog

/-- Pipeline `n` of the program is reached, and then fails. -/
def FailsFor (options : RunOptions) (env : Environment) (p : Program) (n : Nat) (e : Error) :
    Prop :=
  Completes options env p n ∧ ∃ pipeline env₁ env₂,
    p[n]? = some pipeline ∧ (run options env (p.take n)) = (env₁, .ok ⟨n, 0⟩) ∧
    Pipeline.run options (note options env₁ ("pipeline " ++ toString n ++ " started")) pipeline
      = (env₂, .error e)

/-- What a run adds to the log, by what comes out of it. -/
inductive Accounts (options : RunOptions) (env : Environment) (p : Program) :
    Except Error RunReport → List LogEntry → Prop
  | finished (completes : Completes options env p p.length) :
      Accounts options env p (.ok ⟨p.length, 0⟩) (progress options p.length)
  | failed {n : Nat} {e : Error} (fails : FailsFor options env p n e) :
      Accounts options env p (.error e)
        (progress options n ++ noted options ("pipeline " ++ toString n ++ " started")
          ++ [⟨.error, "pipeline " ++ toString n ++ ": [" ++ e.code ++ "] " ++ e.message⟩])

theorem exists_accounts (options : RunOptions) (env : Environment) (p : Program) :
    ∃ entries, Accounts options env p (p.run options env).2 entries ∧
      (p.run options env).1.log = env.log ++ entries := by
  rcases hrun : p.run options env with ⟨env', e | report⟩
  · obtain ⟨done, before, stage, after, rest, env₁, rfl, hfails⟩ := exists_failsAt hrun
    obtain ⟨rfl, -⟩ := Prod.mk.inj ((hfails.run_eq after rest).symm.trans hrun)
    refine ⟨_, .failed (n := done.length) ⟨hfails.completes after rest, ?_⟩, ?_⟩
    · obtain ⟨input, ⟨env₂, report, hdone, hbefore⟩, hstage⟩ := hfails
      obtain ⟨-, rfl⟩ := run_eq_ok_iff.mp hdone
      refine ⟨before ++ stage :: after, env₂, env₁, by simp, by rwa [List.take_left], ?_⟩
      exact Pipeline.run_eq_error_iff.mpr (Pipeline.runFrom_fails hbefore hstage after)
    · change env₁.log ++ [⟨.error, title done.length ++ ": " ++ e.logText⟩] = _
      rw [hfails.log_eq, e.logText_eq, title_eq]
      simp only [List.append_assoc, String.append_assoc]
      rfl
  · obtain ⟨-, rfl⟩ := run_eq_ok_iff.mp hrun
    exact ⟨_, .finished (completes_of_run hrun), log_of_ok hrun⟩

theorem not_error_of_progress {n : Nat} :
    ∀ entry ∈ progress options n ++ noted options ("pipeline " ++ toString n ++ " started"),
      entry.severity ≠ .error := by
  have hnoted (message : String) :
      ∀ entry ∈ noted options message, entry.severity ≠ .error := by
    unfold noted
    split <;> simp
  refine List.forall_mem_append.mpr ⟨fun entry h => ?_, hnoted _⟩
  obtain ⟨i, -, h⟩ := List.mem_flatMap.mp h
  exact (List.mem_append.mp h).elim (hnoted _ entry) (hnoted _ entry)

theorem Accounts.ends {result : Except Error RunReport} {entries : List LogEntry}
    (h : Accounts options env p result entries) : EndsAs result.isOk entries := by
  cases h with
  | finished completes =>
    refine ⟨_, fun entry h => ?_, .inl ⟨rfl, rfl⟩⟩
    exact not_error_of_progress entry (List.mem_append_left _ h)
  | failed fails => exact ⟨_, not_error_of_progress, .inr ⟨rfl, _, rfl, rfl⟩⟩

end Program

/-! ### Workspaces -/

/-- What is logged of stray stacks, if there are any. -/
def Compilation.warning (c : Compilation) : List LogEntry :=
  if 0 < c.strayCount then [⟨.warn, toString c.strayCount ++ " stray stacks found"⟩] else []

theorem Compilation.announce_eq (c : Compilation) (env : Environment) :
    c.announce env = env.withLog (env.log ++ c.warning) := by
  unfold announce warning
  split
  · rfl
  · rw [List.append_nil]
    rfl

theorem Compilation.log_announce (c : Compilation) (env : Environment) :
    (c.announce env).log = env.log ++ c.warning := by
  rw [announce_eq]
  rfl

theorem Compilation.not_error_of_warning (c : Compilation) :
    ∀ entry ∈ c.warning, entry.severity ≠ .error := by
  unfold warning
  split <;> simp

namespace Workspace

variable {w : Workspace} {c : Compilation}

/-- What the run of a workspace adds to the log, by what the run leaves and what comes out of it. -/
inductive Accounts (options : RunOptions) (env : Environment) (w : Workspace) :
    Environment × Except Error RunReport → List LogEntry → Prop
  | rejected {env' : Environment} {cause : CompileError}
      (compiled : w.compile options.defaultBins = .error cause)
      (registry : env'.registry = env.registry) (display : env'.display = env.display) :
      Accounts options env w (env', .error (.compile cause))
        [⟨.error, "[" ++ (Error.compile cause).code ++ "] " ++ (Error.compile cause).message⟩]
  | ran {env' : Environment} {c : Compilation} {result : Except Error RunReport}
      {entries : List LogEntry} (compiled : w.compile options.defaultBins = .ok c)
      (pipelines : c.program.length = (w.heads.filter (!·.isStray)).length)
      (accounts : Program.Accounts options (c.announce env) c.program result entries) :
      Accounts options env w
        (env', result.map fun report => { report with strayCount := c.strayCount })
        (c.warning ++ entries)

theorem Accounts.ends {left : Environment × Except Error RunReport} {entries : List LogEntry}
    (h : Accounts options env w left entries) : EndsAs left.2.isOk entries := by
  cases h with
  | rejected compiled registry display => exact ⟨[], nofun, .inr ⟨rfl, _, rfl, rfl⟩⟩
  | @ran env' c result entries compiled pipelines accounts =>
    have hends := accounts.ends.append_left c.not_error_of_warning
    cases result with
    | error e => exact hends
    | ok report => exact hends

theorem exists_accounts (options : RunOptions) (env : Environment) (w : Workspace) :
    ∃ entries, Accounts options env w (w.run options env) entries ∧
      (w.run options env).1.log = env.log ++ entries := by
  cases hcompile : w.compile options.defaultBins with
  | error cause =>
    have hrun : w.run options env
        = (env.write .error (Error.compile cause).logText, .error (.compile cause)) := by
      rw [run, hcompile]
    rw [hrun]
    refine ⟨_, .rejected hcompile rfl rfl, ?_⟩
    rw [← Error.logText_eq]
    rfl
  | ok c =>
    obtain ⟨entries, haccounts, hlog⟩ :=
      Program.exists_accounts options (c.announce env) c.program
    rw [run_of_compile hcompile]
    refine ⟨c.warning ++ entries,
      .ran hcompile (counts_of_compileStacks hcompile).1 haccounts, ?_⟩
    rw [hlog, c.log_announce, List.append_assoc]

/-- The log after a run is the log before it and then the entries of `Accounts`. They end with an
error if and only if the run fails, and have no other. -/
theorem log_of_run (options : RunOptions) (env : Environment) (w : Workspace) :
    ∃ entries, (w.run options env).1.log = env.log ++ entries ∧
      Accounts options env w (w.run options env) entries ∧
      ((w.run options env).2.isOk = true ↔ ∀ entry ∈ entries, entry.severity ≠ .error) ∧
      ((w.run options env).2.isOk = false ↔ ∃ earlier last, entries = earlier ++ [last] ∧
        last.severity = .error ∧ ∀ entry ∈ earlier, entry.severity ≠ .error) := by
  obtain ⟨entries, haccounts, hlog⟩ := exists_accounts options env w
  exact ⟨entries, hlog, haccounts, haccounts.ends.no_error_iff, haccounts.ends.last_error_iff⟩

/-- A stack that is no pipeline, a table, and a join of tables that are not registered. -/
def joinOfNone : Workspace :=
  .ofChains
    [[.ofFields "variable_column" [("TEXT", .text "first")]], [.ofFields "data_single" []],
      [.ofFields "plumbing_join"
        [("leftName", .text "here"), ("leftColumn", .text "first"),
          ("rightName", .text "there"), ("rightColumn", .text "first")]]]

/-- A selection that does not say of what. -/
def selectNothing : Workspace :=
  .ofChains [[.ofFields "data_single" [], .ofFields "dplyr_select" []]]

/-- A table, and nothing else. -/
def loadSingle : Workspace := .ofChains [[.ofFields "data_single" []]]

/-- Run with the standard datasets, the workspace logs these entries, which account for the run. -/
def Logs (options : RunOptions) (w : Workspace) (entries : List LogEntry) : Prop :=
  (w.run options (.fresh Catalog.standard)).1.log = entries ∧
    Accounts options (.fresh Catalog.standard) w (w.run options (.fresh Catalog.standard)) entries

/-- The logs of a run that fails on its way, of one that does not begin, and of one that succeeds. -/
theorem log_of_three_runs :
    joinOfNone.Logs { verbose := true }
      [⟨.warn, "1 stray stacks found"⟩, ⟨.info, "pipeline 0 started"⟩,
        ⟨.info, "pipeline 0 finished"⟩, ⟨.info, "pipeline 1 started"⟩,
        ⟨.error, "pipeline 1: [UnregisteredName] no table registered under 'here'"⟩] ∧
    selectNothing.Logs {} [⟨.error, "[CompileError] block '#0.1': missing field 'Column'"⟩] ∧
    loadSingle.Logs {} [] ∧
    (loadSingle.run {} (.fresh Catalog.standard)).2
      = .ok { pipelinesRun := 1, strayCount := 0 } := by
  obtain ⟨failed, hfailed, hfailed_accounts, -⟩ :=
    log_of_run { verbose := true } (.fresh Catalog.standard) joinOfNone
  obtain ⟨rejected, hrejected, hrejected_accounts, -⟩ :=
    log_of_run {} (.fresh Catalog.standard) selectNothing
  obtain ⟨finished, hfinished, hfinished_accounts, -⟩ :=
    log_of_run {} (.fresh Catalog.standard) loadSingle
  cases hfailed
  cases hrejected
  cases hfinished
  exact ⟨⟨rfl, hfailed_accounts⟩, ⟨rfl, hrejected_accounts⟩, ⟨rfl, hfinished_accounts⟩, rfl⟩

end Workspace

end TablePipeline
