import TablePipeline.Proofs.Registry
/-!
# One program after another

The run of `p ++ q` is the run of `p` if that fails. If it does not, it goes on as the run of `q` on
its own would from there, and only the numbers of the pipelines in the log tell them apart. What
comes after the first stage that fails could be anything (`Program.run_append`).
-/

namespace TablePipeline.Program

variable {options : RunOptions} {env env' : Environment} {p : Program} {e : Error}

/-- A run after `count` pipelines, `later`, against the run of the same pipelines on its own,
`alone`. Both start from the log `log`. -/
structure Shifted (count : Nat) (log : List LogEntry)
    (alone later : Environment × Except Error RunReport) : Prop where
  result : later.2
    = alone.2.map fun report => { report with pipelinesRun := count + report.pipelinesRun }
  catalog : later.1.catalog = alone.1.catalog
  registry : later.1.registry = alone.1.registry
  display : later.1.display = alone.1.display
  log : ∃ remarks : List Remark, alone.1.log = log ++ remarks.map (Remark.entry 0) ∧
    later.1.log = log ++ remarks.map (Remark.entry count)

theorem run_append_shifted {env₁ : Environment} {report : RunReport}
    (h : p.run options env = (env₁, .ok report)) (q : Program) :
    Shifted p.length env₁.log (q.run options env₁) ((p ++ q).run options env) := by
  obtain ⟨after, result, remarks, hrest⟩ := runFrom_withLog options env₁ q
  have halone : runFrom options env₁ 0 q = _ := hrest env₁.log 0
  have hlater : runFrom options env 0 (p ++ q) = runFrom options env₁ p.length q := by
    rw [runFrom_append, (run_eq_ok_iff.mp h).1]
  replace hlater : runFrom options env 0 (p ++ q) = _ := hlater.trans (hrest env₁.log p.length)
  cases result with
  | error e =>
    rw [run_eq_error_iff.mpr halone, run_eq_error_iff.mpr hlater]
    exact ⟨rfl, rfl, rfl, rfl, remarks, rfl, rfl⟩
  | ok _ =>
    have hcount : p.length + q.length = (p ++ q).length := List.length_append.symm
    rw [Except.map, Nat.zero_add] at halone
    rw [Except.map, hcount] at hlater
    rw [run_eq_ok_iff.mpr ⟨halone, rfl⟩, run_eq_ok_iff.mpr ⟨hlater, rfl⟩]
    refine ⟨?_, rfl, rfl, rfl, remarks, rfl, rfl⟩
    rw [← hcount]
    rfl

/-- The run of some pipelines stops at a stage of the one after `done`: it leaves `env'` and `e`
whatever stages come after, and what the stages before have registered. -/
structure StopsAt (options : RunOptions) (env : Environment) (done : Program)
    (before : List Stage) (stage : Stage) (rest : Program) (env' : Environment) (e : Error) :
    Prop where
  fails : ∃ env₁, FailsAt options env done before stage env₁ e ∧
    env' = env₁.write .error ("pipeline " ++ toString done.length ++ ": " ++ e.logText)
  unreached : ∀ after : List Stage,
    (done ++ (before ++ stage :: after) :: rest).run options env = (env', .error e)
  kept : ∀ first name others, before = first ++ .notify name :: others →
    name ∉ Pipeline.notified others →
    ∃ env₂ given, Reaches options env done first env₂ given ∧
      env'.registry.get? name = some { rows := given.rows, groups := none }

theorem exists_stopsAt (h : p.run options env = (env', .error e)) :
    ∃ done before stage after rest, p = done ++ (before ++ stage :: after) :: rest ∧
      StopsAt options env done before stage rest env' e := by
  obtain ⟨done, before, stage, after, rest, env₁, rfl, hfails⟩ := exists_failsAt h
  obtain ⟨rfl, -⟩ := Prod.mk.inj ((hfails.run_eq after rest).symm.trans h)
  refine ⟨done, before, stage, after, rest, rfl, ⟨env₁, hfails, rfl⟩,
    fun after => hfails.run_eq after rest, ?_⟩
  rintro first name others rfl hothers
  obtain ⟨input, ⟨env₀, report, hdone, hbefore⟩, -⟩ := hfails
  obtain ⟨env₂, given, hfirst, hgiven⟩ := Pipeline.get?_registry_notify hbefore hothers
  exact ⟨env₂, given, ⟨env₀, report, hdone, hfirst⟩, hgiven⟩

/-- A program followed by another one runs as the first one if that fails, and else goes on as the
second one does from where the first one ends. A run that fails stops at a first stage that fails,
and what comes after that stage does not matter. -/
theorem run_append (options : RunOptions) (env : Environment) (p : Program) :
    (∀ q env' e, p.run options env = (env', .error e) →
      (p ++ q).run options env = (env', .error e)) ∧
    (∀ q env₁ report, p.run options env = (env₁, .ok report) → report.pipelinesRun = p.length ∧
      Shifted p.length env₁.log (q.run options env₁) ((p ++ q).run options env)) ∧
    ∀ env' e, p.run options env = (env', .error e) →
      ∃ done before stage after rest, p = done ++ (before ++ stage :: after) :: rest ∧
        StopsAt options env done before stage rest env' e := by
  refine ⟨fun q env' e h => run_append_of_error h q, fun q env₁ report h => ?_,
    fun env' e h => exists_stopsAt h⟩
  have hreport := (run_eq_ok_iff.mp h).2
  exact ⟨by rw [hreport], run_append_shifted h q⟩

/-- A pipeline that registers a table and fails after it. -/
def failsAfterNotify : Program :=
  [[.load "single", .notify "kept", .filter (.column "absent"), .notify "lost"]]

theorem run_append_failsAfterNotify :
    (failsAfterNotify.run {} (.fresh Catalog.standard)).2 = .error (.unknownColumn "absent") ∧
    run {} (.fresh Catalog.standard) (failsAfterNotify ++ [[.load "double"]])
      = failsAfterNotify.run {} (.fresh Catalog.standard) := by
  have hrun : (failsAfterNotify.run {} (.fresh Catalog.standard)).2
      = .error (.unknownColumn "absent") := rfl
  exact ⟨hrun, (run_append {} _ failsAfterNotify).1 [[.load "double"]] _ _ (Prod.ext rfl hrun)⟩

end TablePipeline.Program
