import TablePipeline.Proofs.Compile
import TablePipeline.Proofs.Composition
/-!
# What is registered

A name stands for the rows that its last `notify` was given, without groups. `Pipeline.notified` and
`Program.notified` list the names of a program; a name that is not among them keeps its table
(`Program.get?_registry_of_not_notified`), the others have the one of their last `notify`
(`Program.get?_registry_notify`). A join finds its tables if their names are among the names
registered at first and those of the pipelines before.
-/

namespace TablePipeline

variable {options : RunOptions} {env env' : Environment} {name : String}

/-- A last item with a property has only items without it after it. -/
theorem exists_last {α : Type} {P : α → Prop} {l : List α} (h : ∃ a ∈ l, P a) :
    ∃ before a after, l = before ++ a :: after ∧ P a ∧ ∀ b ∈ after, ¬ P b := by
  induction l with
  | nil => simp at h
  | cons a l ih =>
    by_cases hl : ∃ b ∈ l, P b
    · obtain ⟨before, b, after, rfl, hb, hafter⟩ := ih hl
      exact ⟨a :: before, b, after, rfl, hb, hafter⟩
    · obtain ⟨b, hb, hP⟩ := h
      rcases List.mem_cons.mp hb with rfl | hb
      · exact ⟨[], b, l, rfl, hP, fun c hc hPc => hl ⟨c, hc, hPc⟩⟩
      · exact absurd ⟨b, hb, hP⟩ hl

/-! ### Stages -/

theorem Stage.get?_registry_of_run {stage : Stage} {input output : Table}
    (h : stage.run env input = .ok (env', output)) (hname : stage.notifies? ≠ some name) :
    env'.registry.get? name = env.registry.get? name := by
  rcases Stage.env_of_run h with ⟨-, -, rfl⟩ | ⟨other, rfl, rfl⟩ | ⟨plot, spec, rfl, -, rfl⟩
  · rfl
  · have hne : name ≠ other := fun heq => hname (congrArg some heq.symm)
    change (env.registry.insert other input.ungrouped).get? name = _
    rw [NameMap.get?_insert, if_neg hne]
  · rfl

namespace Pipeline

variable {input output : Table} {stages before after : List Stage}

/-- The names that some stages register tables under. -/
def notified (stages : List Stage) : List String := stages.filterMap Stage.notifies?

theorem get?_registry_runFrom (env : Environment) (input : Table) (hname : name ∉ notified stages) :
    (runFrom env input stages).1.registry.get? name = env.registry.get? name := by
  induction stages generalizing env input with
  | nil => rfl
  | cons stage stages ih =>
    have hstage : stage.notifies? ≠ some name := fun heq =>
      hname (List.mem_filterMap.mpr ⟨stage, List.mem_cons_self, heq⟩)
    have hrest : name ∉ notified stages := fun hmem => by
      obtain ⟨s, hs, heq⟩ := List.mem_filterMap.mp hmem
      exact hname (List.mem_filterMap.mpr ⟨s, List.mem_cons_of_mem _ hs, heq⟩)
    rw [runFrom]
    split
    · next env₁ made hrun =>
      rw [ih _ _ hrest, Stage.get?_registry_of_run hrun hstage]
    · rfl

/-- A name has the rows that its last `notify` among some stages was given, without groups. -/
theorem get?_registry_notify
    (h : runFrom env input (before ++ .notify name :: after) = (env', .ok output))
    (hafter : name ∉ notified after) :
    ∃ env₁ given, runFrom env input before = (env₁, .ok given) ∧
      env'.registry.get? name = some { rows := given.rows, groups := none } := by
  obtain ⟨env₁, given, hbefore, hrest⟩ := runFrom_prefix h
  refine ⟨env₁, given, hbefore, ?_⟩
  have hlast := get?_registry_runFrom (env₁.register name given.ungrouped) given.ungrouped hafter
  change runFrom (env₁.register name given.ungrouped) given.ungrouped after = _ at hrest
  rw [hrest] at hlast
  change _ = (env₁.registry.insert name given.ungrouped).get? name at hlast
  rw [hlast, NameMap.get?_insert, if_pos rfl]
  rfl

theorem registry_run (options : RunOptions) (env : Environment) (p : Pipeline) :
    (p.run options env).1.registry = (runFrom env Table.empty p).1.registry := by
  unfold run
  split
  · next env₁ output hrun =>
    rw [hrun]
    dsimp only
    split <;> rfl
  · next hrun => rw [hrun]

end Pipeline

/-! ### Pipelines -/

namespace Program

variable {p done rest : Program} {before after : List Stage} {n : Nat}

/-- The names that a program registers tables under. -/
def notified (p : Program) : List String := p.flatMap Pipeline.notified

theorem registry_note (options : RunOptions) (env : Environment) (message : String) :
    (note options env message).registry = env.registry := by
  unfold note
  split <;> rfl

theorem get?_registry_runFrom (env : Environment) (n : Nat) (hname : name ∉ p.notified) :
    (runFrom options env n p).1.registry.get? name = env.registry.get? name := by
  induction p generalizing env n with
  | nil => rfl
  | cons pipeline p ih =>
    rw [notified, List.flatMap_cons, List.mem_append, not_or] at hname
    have hpipeline := Pipeline.get?_registry_runFrom
      (note options env (title n ++ " started")) Table.empty hname.1
    rw [← Pipeline.registry_run options, registry_note] at hpipeline
    rw [runFrom]
    split
    · next env₁ hrun =>
      rw [hrun] at hpipeline
      rw [ih _ _ hname.2, registry_note, hpipeline]
    · next env₁ e hrun =>
      rw [hrun] at hpipeline
      exact hpipeline

/-- A name that no pipeline registers keeps its table. -/
theorem get?_registry_of_not_notified {report : RunReport}
    (h : p.run options env = (env', .ok report)) (hname : name ∉ p.notified) :
    env'.registry.get? name = env.registry.get? name := by
  have hrun : (runFrom options env 0 p).1.registry.get? name = env.registry.get? name :=
    get?_registry_runFrom env 0 hname
  rwa [(run_eq_ok_iff.mp h).1] at hrun

/-- A name has the rows that its last `notify` was given, without groups. -/
theorem get?_registry_notify {report : RunReport}
    (h : (done ++ (before ++ .notify name :: after) :: rest).run options env = (env', .ok report))
    (hafter : name ∉ Pipeline.notified after) (hrest : name ∉ rest.notified) :
    ∃ env₁ given, Reaches options env done before env₁ given ∧
      env'.registry.get? name = some { rows := given.rows, groups := none } := by
  obtain ⟨env₁, hdone, hrun⟩ := runFrom_prefix (run_eq_ok_iff.mp h).1
  rw [Nat.zero_add] at hdone hrun
  rw [runFrom] at hrun
  split at hrun
  · next env₂ hpipeline =>
    have hregistry := Pipeline.registry_run options
      (note options env₁ (title done.length ++ " started")) (before ++ .notify name :: after)
    rw [hpipeline] at hregistry
    unfold Pipeline.run at hpipeline
    split at hpipeline
    · next env₃ output hstages =>
      obtain ⟨env₄, given, hbefore, hgiven⟩ := Pipeline.get?_registry_notify hstages hafter
      refine ⟨env₄, given, ⟨env₁, _, run_eq_ok_iff.mpr ⟨hdone, rfl⟩, hbefore⟩, ?_⟩
      have hlast : (runFrom options (note options env₂ (title done.length ++ " finished"))
          (done.length + 1) rest).1.registry.get? name = env₂.registry.get? name := by
        rw [get?_registry_runFrom _ _ hrest, registry_note]
      rw [hrun] at hlast
      rw [hlast, ← hgiven]
      rw [hstages] at hregistry
      exact congrArg (·.get? name) hregistry
    · cases hpipeline
  · cases hrun

/-- The last `notify` of a name stands in a last pipeline with one, and there after all others. -/
theorem exists_last_notify (h : name ∈ p.notified) :
    ∃ done before after rest, p = done ++ (before ++ .notify name :: after) :: rest ∧
      name ∉ Pipeline.notified after ∧ name ∉ notified rest := by
  obtain ⟨done, pipeline, rest, rfl, hpipeline, hrest⟩ := exists_last (List.mem_flatMap.mp h)
  obtain ⟨before, stage, after, rfl, hstage, hafter⟩ :=
    exists_last (List.mem_filterMap.mp hpipeline)
  obtain rfl : stage = .notify name := by
    cases stage with
    | notify other => rw [Option.some.inj hstage]
    | load _ | select _ | filter _ | mutate _ _ | group _ | summarize _ | join _ _ _ _
    | visualize _ => cases hstage
  refine ⟨done, before, after, rest, rfl, fun hmem => ?_, fun hmem => ?_⟩
  · obtain ⟨s, hs, heq⟩ := List.mem_filterMap.mp hmem
    exact hafter s hs heq
  · obtain ⟨q, hq, hmem⟩ := List.mem_flatMap.mp hmem
    exact hrest q hq hmem

/-- The names registered at the end of a run are those at its start and those that it registers. -/
theorem contains_registry_iff {report : RunReport} (h : p.run options env = (env', .ok report))
    (name : String) :
    env'.registry.contains name = true ↔
      env.registry.contains name = true ∨ name ∈ p.notified := by
  by_cases hname : name ∈ p.notified
  · obtain ⟨done, before, after, rest, rfl, hafter, hrest⟩ := exists_last_notify hname
    obtain ⟨env₁, given, -, hgiven⟩ := get?_registry_notify h hafter hrest
    exact iff_of_true (by rw [NameMap.contains, hgiven]; rfl) (.inr hname)
  · rw [NameMap.contains, get?_registry_of_not_notified h hname, ← NameMap.contains]
    exact ⟨.inl, fun h => h.resolve_right hname⟩

/-- The registry in `env'` is what the program makes of the one in `env`. -/
structure HoldsLast (options : RunOptions) (env : Environment) (p : Program) (env' : Environment) :
    Prop where
  names : ∀ name, env'.registry.contains name = true ↔
    env.registry.contains name = true ∨ name ∈ p.notified
  kept : ∀ name, name ∉ p.notified → env'.registry.get? name = env.registry.get? name
  last : ∀ done before name after rest, p = done ++ (before ++ .notify name :: after) :: rest →
    name ∉ Pipeline.notified after → name ∉ notified rest →
    ∃ env₁ given, Reaches options env done before env₁ given ∧
      env'.registry.get? name = some { rows := given.rows, groups := none }

theorem run_holdsLast {report : RunReport} (h : p.run options env = (env', .ok report)) :
    HoldsLast options env p env' where
  names := contains_registry_iff h
  kept _ hname := get?_registry_of_not_notified h hname
  last := by
    rintro done before name after rest rfl hafter hrest
    exact get?_registry_notify h hafter hrest

end Program

/-! ### Names that are not registered -/

/-- Where the names that satisfy `known` are registered, a join looks for `name` in vain. -/
def Misses (known : String → Prop) (leftName rightName name : String) : Prop :=
  name = leftName ∧ ¬ known leftName ∨ known leftName ∧ name = rightName ∧ ¬ known rightName

theorem Environment.lookup_eq_error_iff {e : Error} :
    env.lookup name = .error e ↔
      e = .unregisteredName name ∧ ¬ env.registry.contains name = true := by
  rw [lookup, NameMap.contains]
  cases env.registry.get? name <;> simp [eq_comm]

theorem Environment.contains_of_lookup {t : Table} (h : env.lookup name = .ok t) :
    env.registry.contains name = true := by
  rw [lookup] at h
  rw [NameMap.contains]
  cases hget : env.registry.get? name with
  | none => rw [hget] at h; cases h
  | some u => rfl

open Outcome (bind_eq_error)

/-- Only a join fails for a name that is not registered. -/
theorem Stage.run_unregistered_iff {stage : Stage} {input : Table} :
    stage.run env input = .error (.unregisteredName name) ↔
      ∃ leftName leftColumn rightName rightColumn,
        stage = .join leftName leftColumn rightName rightColumn ∧
        Misses (fun known => env.registry.contains known = true) leftName rightName name := by
  constructor
  · intro h
    by_cases hjoin : ∃ leftName leftColumn rightName rightColumn,
        stage = .join leftName leftColumn rightName rightColumn
    · obtain ⟨leftName, leftColumn, rightName, rightColumn, rfl⟩ := hjoin
      refine ⟨_, _, _, _, rfl, ?_⟩
      rcases bind_eq_error.mp h with hleft | ⟨left, hleft, h⟩
      · obtain ⟨heq, hunknown⟩ := Environment.lookup_eq_error_iff.mp hleft
        exact .inl ⟨Error.unregisteredName.inj heq, hunknown⟩
      rcases bind_eq_error.mp h with hright | ⟨right, hright, h⟩
      · obtain ⟨heq, hunknown⟩ := Environment.lookup_eq_error_iff.mp hright
        exact .inr ⟨Environment.contains_of_lookup hleft, Error.unregisteredName.inj heq, hunknown⟩
      · -- Both tables are found, and what a join of tables raises concerns their cells.
        have hcells :
            Outcome.Raises (fun e => e.OfCells) (left.join leftColumn right rightColumn) :=
          Table.join_raises (fun _ => id) left leftColumn right rightColumn
        rcases bind_eq_error.mp h with hmade | ⟨made, -, h⟩
        · exact (hcells _ hmade).elim
        · cases h
    · have hother : Outcome.Raises (fun e => e ≠ .unregisteredName name) (stage.run env input) := by
        refine Stage.run_raises_of ?_ ?_ (fun _ => nofun) (fun _ _ _ _ heq => ?_) (.inr ?_) env
          input
        · rintro e he rfl
          exact he
        · rintro e he rfl
          exact he
        · exact absurd ⟨_, _, _, _, heq⟩ hjoin
        · rintro e (⟨f, rfl⟩ | rfl | rfl) heq <;> cases heq
      exact absurd rfl (hother _ h)
  · rintro ⟨leftName, leftColumn, rightName, rightColumn, rfl, hmiss⟩
    rcases hmiss with ⟨rfl, hunknown⟩ | ⟨hleft, rfl, hunknown⟩
    · exact bind_eq_error.mpr (.inl (Environment.lookup_eq_error_iff.mpr ⟨rfl, hunknown⟩))
    · obtain ⟨left, hget⟩ := Option.isSome_iff_exists.mp hleft
      have hlookup : env.lookup leftName = .ok left := by rw [Environment.lookup, hget]
      refine bind_eq_error.mpr (.inr ⟨left, hlookup, ?_⟩)
      exact bind_eq_error.mpr (.inl (Environment.lookup_eq_error_iff.mpr ⟨rfl, hunknown⟩))

namespace Program

variable {p : Program} {k : Nat}

/-- The name is registered at first, or one of the first `k` pipelines registers it. -/
def Known (env : Environment) (p : Program) (k : Nat) (name : String) : Prop :=
  env.registry.contains name = true ∨ name ∈ notified (p.take k)

/-- The first pipeline that does not run to its end joins a name that is not known. -/
def MissesAt (options : RunOptions) (env : Environment) (p : Program) (k : Nat) (name : String) :
    Prop :=
  Completes options env p k ∧ ∃ leftName leftColumn rightName rightColumn after,
    p[k]? = some (.join leftName leftColumn rightName rightColumn :: after) ∧
    Misses (p.Known env k) leftName rightName name

theorem run_of_missesAt (h : p.MissesAt options env k name) :
    (p.run options env).2 = .error (.unregisteredName name) := by
  obtain ⟨hcomplete, leftName, leftColumn, rightName, rightColumn, after, hk, hmiss⟩ := h
  obtain ⟨env₁, hdone⟩ := hcomplete.run_take
  have hstage : (Stage.join leftName leftColumn rightName rightColumn).run
      (note options env₁ (title (p.take k).length ++ " started")) Table.empty
        = .error (.unregisteredName name) := by
    refine Stage.run_unregistered_iff.mpr ⟨_, _, _, _, rfl, ?_⟩
    simp only [registry_note, contains_registry_iff hdone]
    exact hmiss
  have hfails : FailsAt options env (p.take k) [] (.join leftName leftColumn rightName rightColumn)
      (note options env₁ (title (p.take k).length ++ " started")) (.unregisteredName name) :=
    ⟨Table.empty, ⟨env₁, _, hdone, rfl⟩, hstage⟩
  have hrun := hfails.run_eq after (p.drop (k + 1))
  obtain ⟨hlt, hget⟩ := List.getElem?_eq_some_iff.mp hk
  rw [List.nil_append, ← hget, ← List.drop_eq_getElem_cons hlt, List.take_append_drop] at hrun
  rw [hrun]

theorem missesAt_of_run (hformed : p.WellFormed)
    (h : (p.run options env).2 = .error (.unregisteredName name)) :
    ∃ k, p.MissesAt options env k name := by
  rcases hrun : p.run options env with ⟨env', e | report⟩
  · rw [hrun] at h
    cases h
    obtain ⟨done, before, stage, after, rest, env₂, rfl, hfails⟩ := exists_failsAt hrun
    have hcomplete := hfails.completes after rest
    obtain ⟨input, ⟨env₁, report, hdone, hbefore⟩, hstage⟩ := hfails
    obtain ⟨leftName, leftColumn, rightName, rightColumn, rfl, hmiss⟩ :=
      Stage.run_unregistered_iff.mp hstage
    -- A join is a source, so that no stage comes before it.
    obtain rfl : before = [] := by
      cases before with
      | nil => rfl
      | cons first before =>
        have hpipeline := hformed _ (List.mem_append_right done List.mem_cons_self)
        have hsource := hpipeline.source_only_head
          (.join leftName leftColumn rightName rightColumn) (by simp)
        cases hsource
    cases hbefore
    refine ⟨done.length, hcomplete, leftName, leftColumn, rightName, rightColumn, after, by simp,
      ?_⟩
    have hknown : ∀ known, Known env (done ++ ([] ++ Stage.join leftName leftColumn rightName
        rightColumn :: after) :: rest) done.length known ↔
          env₁.registry.contains known = true := by
      intro known
      rw [Known, List.take_left, contains_registry_iff hdone]
    simp only [registry_note] at hmiss
    unfold Misses
    rw [hknown, hknown]
    exact hmiss
  · rw [hrun] at h
    cases h

end Program

namespace Workspace

variable {w : Workspace} {bins : Nat} {c : Compilation}

open Program

/-- After any number of pipelines of a compiled program, every name has the rows that its last
`notify` was given, without groups, or the table it had at first. The run fails for a name that is
not registered if and only if the first pipeline that fails starts with a join that does not find
it. -/
theorem registry_of_compile (h : w.compile bins = .ok c) (options : RunOptions)
    (env : Environment) :
    (∀ k env' report, Program.run options env (c.program.take k) = (env', .ok report) →
      HoldsLast options env (c.program.take k) env') ∧
    (∀ name, (c.program.run options env).2 = .error (.unregisteredName name) ↔
      ∃ k, c.program.MissesAt options env k name) ∧
    ((∀ k pipeline, c.program[k]? = some pipeline →
        ∀ leftName leftColumn rightName rightColumn,
          .join leftName leftColumn rightName rightColumn ∈ pipeline →
          leftName ∈ notified (c.program.take k) ∧ rightName ∈ notified (c.program.take k)) →
      ∀ name, (c.program.run options env).2 ≠ .error (.unregisteredName name)) := by
  have hmisses (name : String)
      (hrun : (c.program.run options env).2 = .error (.unregisteredName name)) :
      ∃ k, c.program.MissesAt options env k name :=
    missesAt_of_run (compile_wellFormed h) hrun
  refine ⟨fun k env' report hrun => run_holdsLast hrun,
    fun name => ⟨hmisses name, fun ⟨k, hk⟩ => run_of_missesAt hk⟩, fun hjoins name hrun => ?_⟩
  obtain ⟨k, -, leftName, leftColumn, rightName, rightColumn, after, hk, hmiss⟩ := hmisses name hrun
  obtain ⟨hleft, hright⟩ :=
    hjoins k _ hk leftName leftColumn rightName rightColumn List.mem_cons_self
  rcases hmiss with ⟨-, hunknown⟩ | ⟨-, -, hunknown⟩
  · exact hunknown (.inr hleft)
  · exact hunknown (.inr hright)

/-- A table that is registered twice under one name, the second time with groups, and a join with a
table that is not registered. -/
def joinOfOne : Workspace :=
  .ofChains
    [[.ofFields "data_double" [], .ofFields "plumbing_notify" [("name", .text "here")]],
      [.ofFields "data_double" [], .ofFields "dplyr_groupby" [("Column", .text "first")],
        .ofFields "plumbing_notify" [("name", .text "here")]],
      [.ofFields "plumbing_join"
        [("leftName", .text "here"), ("leftColumn", .text "Index"),
          ("rightName", .text "there"), ("rightColumn", .text "first")]]]

/-- The pipelines of `joinOfOne`. -/
def joinOfOneProgram : Program :=
  [[.load "double", .notify "here"], [.load "double", .group "first", .notify "here"],
    [.join "here" "Index" "there" "first"]]

/-- The rows of the second table, in two groups. -/
def halves : Table where
  rows := [.ofList [("Index", .int 1), ("second", .int 100)],
    .ofList [("Index", .int 2), ("second", .int 200)]]
  groups := some [⟨.int 1, 0, 1⟩, ⟨.int 2, 1, 2⟩]

/-- The name has the rows of the second table after two pipelines, without its groups. -/
theorem joinOfOne_misses :
    joinOfOne.compile standardBins = .ok { program := joinOfOneProgram, strayCount := 0 } ∧
    (∃ k, MissesAt {} (.fresh Catalog.standard) joinOfOneProgram k "there") ∧
    ∃ env₁ env₂ report,
      Reaches {} (.fresh Catalog.standard) (joinOfOneProgram.take 1)
        [.load "double", .group "first"] env₁ halves ∧
      Program.run {} (.fresh Catalog.standard) (joinOfOneProgram.take 2) = (env₂, .ok report) ∧
      env₂.registry.get? "here" = some { rows := halves.rows, groups := none } := by
  have hcompile : joinOfOne.compile standardBins
      = .ok { program := joinOfOneProgram, strayCount := 0 } := rfl
  have hrun : (joinOfOneProgram.run {} (.fresh Catalog.standard)).2
      = .error (.unregisteredName "there") := rfl
  obtain ⟨hregistry, hmisses, -⟩ := registry_of_compile hcompile {} (.fresh Catalog.standard)
  refine ⟨hcompile, (hmisses "there").mp hrun, ?_⟩
  obtain ⟨env₁, given, hreaches, hget⟩ := (hregistry 2 _ _ rfl).last (joinOfOneProgram.take 1)
    [.load "double", .group "first"] "here" [] [] rfl (by decide) (by decide)
  obtain rfl : given = halves := by
    obtain ⟨env₀, report, hdone, hgiven⟩ := hreaches
    cases hdone
    cases hgiven
    rfl
  exact ⟨env₁, _, _, hreaches, rfl, hget⟩

end Workspace

end TablePipeline
