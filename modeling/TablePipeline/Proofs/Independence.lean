import TablePipeline.Proofs.Registry
/-!
# Pipelines that do not depend on each other

A pipeline looks at the catalog and at the tables that its joins name, and at nothing else. What it
leaves is an `Effect`: tables registered under its own names, and exhibits after those that are
there (`Pipeline.run_local`). Two pipelines that share no name, but for names that both only look
up, can therefore change places: the run registers and logs the same, and only the exhibits of the
two change places as well (`Program.run_swap`).
-/

namespace TablePipeline

variable {options : RunOptions} {env env' : Environment} {name : String}

/-! ### Effects -/

/-- What stages leave in an environment: the tables that they register and the exhibits that they
display, in order. -/
structure Effect where
  writes : List (String × Table)
  exhibits : List Exhibit

namespace Effect

/-- Nothing is left. -/
def none : Effect := ⟨[], []⟩

/-- One effect after another. -/
def andThen (first second : Effect) : Effect :=
  ⟨first.writes ++ second.writes, first.exhibits ++ second.exhibits⟩

/-- The names that tables are registered under. -/
def names (e : Effect) : List String := e.writes.map (·.1)

/-- The environment in which the effect has taken place. -/
def on (e : Effect) (env : Environment) : Environment :=
  { env with registry := env.registry.insertAll e.writes, display := env.display ++ e.exhibits }

variable {e first second : Effect}

theorem none_on (env : Environment) : none.on env = env := by
  change { env with display := env.display ++ [] } = env
  rw [List.append_nil]

theorem andThen_on (first second : Effect) (env : Environment) :
    (first.andThen second).on env = second.on (first.on env) := by
  simp only [on, andThen, NameMap.insertAll_append, List.append_assoc]

theorem names_andThen (first second : Effect) :
    (first.andThen second).names = first.names ++ second.names :=
  List.map_append

theorem get?_registry_on (e : Effect) (env : Environment) (name : String) :
    (e.on env).registry.get? name
      = (e.writes.reverse.lookup name).or (env.registry.get? name) :=
  NameMap.get?_insertAll ..

theorem lookup_writes_of_not_mem (h : name ∉ e.names) :
    e.writes.reverse.lookup name = Option.none := by
  rw [← Option.not_isSome_iff_eq_none, lookup_isSome_iff, List.map_reverse, List.mem_reverse]
  exact h

/-- A name that nothing is registered under keeps its table. -/
theorem get?_registry_on_of_not_mem (env : Environment) (h : name ∉ e.names) :
    (e.on env).registry.get? name = env.registry.get? name := by
  rw [get?_registry_on, lookup_writes_of_not_mem h, Option.none_or]

/-- Effects under different names can take place in either order. -/
theorem registry_on_comm (h : ∀ name ∈ first.names, name ∉ second.names) (env : Environment) :
    (second.on (first.on env)).registry = (first.on (second.on env)).registry := by
  refine NameMap.ext_get? fun name => ?_
  by_cases hfirst : name ∈ first.names
  · rw [get?_registry_on_of_not_mem _ (h name hfirst), get?_registry_on, get?_registry_on first,
      get?_registry_on_of_not_mem env (h name hfirst)]
  · rw [get?_registry_on_of_not_mem _ hfirst, get?_registry_on, get?_registry_on second,
      get?_registry_on_of_not_mem env hfirst]

end Effect

/-! ### What a pipeline looks at -/

/-- The environments have the same catalog and the same tables under some names. -/
structure Agree (names : List String) (env env' : Environment) : Prop where
  catalog : env'.catalog = env.catalog
  tables : ∀ name ∈ names, env'.registry.get? name = env.registry.get? name

namespace Agree

variable {names : List String} {e : Effect}

theorem refl (names : List String) (env : Environment) : Agree names env env :=
  ⟨rfl, fun _ _ => rfl⟩

theorem lookup (h : Agree names env env') (hname : name ∈ names) :
    env'.lookup name = env.lookup name := by
  rw [Environment.lookup, Environment.lookup, h.tables name hname]

theorem subset {fewer : List String} (h : Agree names env env')
    (hsub : ∀ name ∈ fewer, name ∈ names) :
    Agree fewer env env' :=
  ⟨h.catalog, fun name hname => h.tables name (hsub name hname)⟩

theorem on (h : Agree names env env') (e : Effect) : Agree names (e.on env) (e.on env') := by
  refine ⟨h.catalog, fun name hname => ?_⟩
  rw [e.get?_registry_on, e.get?_registry_on, h.tables name hname]

/-- An effect under other names is not seen. -/
theorem of_effect (h : ∀ name ∈ names, name ∉ e.names) (env : Environment) :
    Agree names env (e.on env) :=
  ⟨rfl, fun name hname => Effect.get?_registry_on_of_not_mem env (h name hname)⟩

end Agree

/-- The names whose tables the stage looks up. -/
def Stage.joins : Stage → List String
  | .join leftName _ rightName _ => [leftName, rightName]
  | _ => []

/-- The stage has one effect and one result wherever it finds the same tables as in `env`. -/
def Stage.Local (env : Environment) (input : Table) (stage : Stage) : Prop :=
  ∃ made : Except Error (Effect × Table),
    (∀ e output, made = .ok (e, output) → ∀ name ∈ e.names, stage.notifies? = some name) ∧
    ∀ env', Agree stage.joins env env' →
      stage.run env' input = made.map fun m => (m.1.on env', m.2)

/-- A stage that fails wherever it finds these tables leaves nothing. -/
theorem Stage.local_of_fails {input : Table} {stage : Stage} {e : Error}
    (h : ∀ env', Agree stage.joins env env' → stage.run env' input = .error e) :
    stage.Local env input :=
  ⟨.error e, nofun, h⟩

/-- A stage that does no more than make a table, if it can, has one effect and one result. -/
theorem Stage.local_of_makes {input : Table} {stage : Stage} (made : Except Error Table)
    (h : ∀ env', Agree stage.joins env env' → stage.run env' input = do return (env', ← made)) :
    stage.Local env input := by
  cases made with
  | error e => exact local_of_fails h
  | ok output =>
    refine ⟨.ok (.none, output), ?_, fun env' hagree => ?_⟩
    · rintro _ _ ⟨⟩ name hname
      cases hname
    · rw [h env' hagree]
      change Except.ok (env', output) = .ok (Effect.none.on env', output)
      rw [Effect.none_on]

theorem Stage.run_local (env : Environment) (input : Table) (stage : Stage) :
    stage.Local env input := by
  cases stage with
  | load source =>
    refine local_of_makes (env.catalog.load source) fun env' h => ?_
    rw [← h.catalog]
    rfl
  | select columns => exact local_of_makes (input.select columns) fun _ _ => rfl
  | filter predicate => exact local_of_makes (input.filter predicate) fun _ _ => rfl
  | mutate column value => exact local_of_makes (input.mutate column value) fun _ _ => rfl
  | group column => exact local_of_makes (input.group column) fun _ _ => rfl
  | summarize aggregates => exact local_of_makes (input.summarize aggregates) fun _ _ => rfl
  | join leftName leftColumn rightName rightColumn =>
    refine local_of_makes (do
      let left ← env.lookup leftName
      let right ← env.lookup rightName
      left.join leftColumn right rightColumn) fun env' h => ?_
    have hleft : env'.lookup leftName = env.lookup leftName := h.lookup (by simp [joins])
    have hright : env'.lookup rightName = env.lookup rightName := h.lookup (by simp [joins])
    rw [Stage.run, hleft, hright]
    simp only [bind_assoc]
  | notify name =>
    refine ⟨.ok (⟨[(name, input.ungrouped)], []⟩, input.ungrouped), ?_, fun env' _ => ?_⟩
    · rintro _ _ ⟨⟩ other hother
      rw [List.mem_singleton.mp hother]
      rfl
    · change _ = Except.ok ({ env'.register name input.ungrouped with
        display := env'.display ++ [] }, input.ungrouped)
      rw [List.append_nil]
      rfl
  | visualize plot =>
    cases hspec : plot.spec input with
    | error e => exact local_of_fails fun env' _ => by rw [Stage.run, hspec]; rfl
    | ok spec =>
      refine ⟨.ok (⟨[], [.table input.rows, .plot spec]⟩, input.ungrouped), ?_, fun env' _ => ?_⟩
      · rintro _ _ ⟨⟩ name hname
        cases hname
      · rw [Stage.run, hspec]
        change Except.ok ({ env' with
          display := env'.display ++ [Exhibit.table input.rows] ++ [Exhibit.plot spec] }, _) = _
        rw [List.append_assoc]
        rfl

namespace Pipeline

/-- The names whose tables some stages look up. -/
def joined (stages : List Stage) : List String := stages.flatMap Stage.joins

theorem runFrom_local (env : Environment) (input : Table) (stages : List Stage) :
    ∃ (e : Effect) (result : Except Error Table), (∀ name ∈ e.names, name ∈ notified stages) ∧
      ∀ env', Agree (joined stages) env env' → runFrom env' input stages = (e.on env', result) := by
  induction stages generalizing env input with
  | nil =>
    refine ⟨.none, .ok input, nofun, fun env' _ => ?_⟩
    rw [Effect.none_on]
    rfl
  | cons stage rest ih =>
    obtain ⟨made, hnames, hstage⟩ := stage.run_local env input
    have hhead {env' : Environment} (h : Agree (joined (stage :: rest)) env env') :
        Agree stage.joins env env' :=
      h.subset fun name hname => List.mem_append_left _ hname
    cases made with
    | error cause =>
      refine ⟨.none, .error cause, nofun, fun env' h => ?_⟩
      rw [runFrom, hstage env' (hhead h), Effect.none_on]
      rfl
    | ok made =>
      obtain ⟨e, output⟩ := made
      obtain ⟨later, result, hlater, hrest⟩ := ih (e.on env) output
      refine ⟨e.andThen later, result, fun name hname => ?_, fun env' h => ?_⟩
      · rw [Effect.names_andThen, List.mem_append] at hname
        rw [notified, List.mem_filterMap]
        rcases hname with hname | hname
        · exact ⟨stage, List.mem_cons_self, hnames e output rfl name hname⟩
        · obtain ⟨s, hs, heq⟩ := List.mem_filterMap.mp (hlater name hname)
          exact ⟨s, List.mem_cons_of_mem _ hs, heq⟩
      · have htail : Agree (joined rest) (e.on env) (e.on env') :=
          (h.subset fun name hname => List.mem_append_right _ hname).on e
        rw [runFrom, hstage env' (hhead h), Effect.andThen_on, ← hrest _ htail]
        rfl

/-- A pipeline has one effect and ends in one way wherever its joins find the same tables. It
registers tables only under the names that it notifies. -/
theorem run_local (options : RunOptions) (env : Environment) (p : Pipeline) :
    ∃ (e : Effect) (result : Except Error Unit), (∀ name ∈ e.names, name ∈ notified p) ∧
      ∀ env', Agree (joined p) env env' → p.run options env' = (e.on env', result) := by
  obtain ⟨e, result, hnames, hrun⟩ := runFrom_local env Table.empty p
  cases result with
  | error cause =>
    refine ⟨e, .error cause, hnames, fun env' h => ?_⟩
    rw [run, hrun env' h]
  | ok output =>
    refine ⟨e.andThen ⟨[], if options.displayResults && !endsInPlot p then [.table output.rows]
      else []⟩, .ok (), ?_, fun env' h => ?_⟩
    · rw [Effect.names_andThen]
      simpa [Effect.names] using hnames
    · rw [run, hrun env' h, Effect.andThen_on]
      dsimp only
      split
      · rfl
      · exact Prod.ext (Effect.none_on _).symm rfl

/-- A run leaves an effect, and would leave it anywhere else that the joins find the same. -/
theorem exists_effect {p : Pipeline} {result : Except Error Unit}
    (h : p.run options env = (env', result)) :
    ∃ e : Effect, env' = e.on env ∧ (∀ name ∈ e.names, name ∈ notified p) ∧
      ∀ env₁, Agree (joined p) env env₁ → p.run options env₁ = (e.on env₁, result) := by
  obtain ⟨e, result', hnames, hlocal⟩ := run_local options env p
  obtain ⟨rfl, rfl⟩ := Prod.mk.inj (h.symm.trans (hlocal env (.refl ..)))
  exact ⟨e, rfl, hnames, hlocal⟩

/-- Neither pipeline registers a table under a name that the other one uses. -/
structure Independent (p q : Pipeline) : Prop where
  names : ∀ name ∈ notified p, name ∉ notified q
  left : ∀ name ∈ joined p, name ∉ notified q
  right : ∀ name ∈ joined q, name ∉ notified p

/-- Independent pipelines have the same effects in either order. -/
theorem Independent.runs_either_way {p q : Pipeline} (h : Independent p q)
    {env₁ env₂ : Environment} (hp : p.run options env = (env₁, .ok ()))
    (hq : q.run options env₁ = (env₂, .ok ())) :
    ∃ ofP ofQ : Effect,
      env₁ = ofP.on env ∧ env₂ = ofQ.on (ofP.on env) ∧
      q.run options env = (ofQ.on env, .ok ()) ∧
      p.run options (ofQ.on env) = (ofP.on (ofQ.on env), .ok ()) ∧
      (ofP.on (ofQ.on env)).registry = (ofQ.on (ofP.on env)).registry := by
  obtain ⟨ofP, rfl, hnamesP, hrunP⟩ := exists_effect hp
  have hqp : ∀ name ∈ joined q, name ∉ ofP.names := fun name hname hmem =>
    h.right name hname (hnamesP name hmem)
  obtain ⟨ofQ, resultQ, hnamesQ, hrunQ⟩ := run_local options env q
  have hpq : ∀ name ∈ joined p, name ∉ ofQ.names := fun name hname hmem =>
    h.left name hname (hnamesQ name hmem)
  obtain ⟨rfl, rfl⟩ := Prod.mk.inj (hq.symm.trans (hrunQ _ (.of_effect hqp env)))
  refine ⟨ofP, ofQ, rfl, rfl, hrunQ env (.refl ..), hrunP _ (.of_effect hpq env), ?_⟩
  exact Effect.registry_on_comm (fun name hQ hP =>
    h.names name (hnamesP name hP) (hnamesQ name hQ)) env

end Pipeline

/-! ### Runs, pipeline by pipeline -/

namespace Program

/-- The pipelines run to their ends one after the other, from `env` to `env'`, and each displays a
block of exhibits. -/
inductive Passes (options : RunOptions) :
    Environment → Program → List (List Exhibit) → Environment → Prop
  | nil {env : Environment} : Passes options env [] [] env
  | cons {env env₁ env' : Environment} {p : Pipeline} {rest : Program} {block : List Exhibit}
      {blocks : List (List Exhibit)} (run : p.run options env = (env₁, .ok ()))
      (display : env₁.display = env.display ++ block)
      (passes : Passes options env₁ rest blocks env') :
      Passes options env (p :: rest) (block :: blocks) env'

variable {p q : Pipeline} {done rest : Program} {blocks : List (List Exhibit)}

theorem note_quiet (hquiet : options.verbose = false) (env : Environment) (message : String) :
    note options env message = env := by
  rw [note, hquiet]
  rfl

theorem passes_of_runFrom (hquiet : options.verbose = false) {n m : Nat}
    (h : runFrom options env n rest = (env', .ok m)) :
    ∃ blocks, Passes options env rest blocks env' := by
  induction rest generalizing env n with
  | nil =>
    cases h
    exact ⟨[], .nil⟩
  | cons p rest ih =>
    rw [runFrom, note_quiet hquiet] at h
    split at h
    · next env₁ hp =>
      rw [note_quiet hquiet] at h
      obtain ⟨blocks, hrest⟩ := ih h
      obtain ⟨e, rfl, -, -⟩ := Pipeline.exists_effect hp
      exact ⟨e.exhibits :: blocks, .cons hp rfl hrest⟩
    · cases h

namespace Passes

theorem runFrom_eq (hquiet : options.verbose = false) (h : Passes options env rest blocks env')
    (n : Nat) : runFrom options env n rest = (env', .ok (n + rest.length)) := by
  induction h generalizing n with
  | nil => rfl
  | @cons _ _ _ _ rest _ _ run _ _ ih =>
    rw [runFrom, note_quiet hquiet, run]
    dsimp only
    rw [note_quiet hquiet, ih, List.length_cons, Nat.add_assoc, Nat.add_comm 1]

theorem run_eq (hquiet : options.verbose = false) (h : Passes options env rest blocks env') :
    rest.run options env = (env', .ok ⟨rest.length, 0⟩) := by
  have hrun := h.runFrom_eq hquiet 0
  rw [Nat.zero_add] at hrun
  exact run_eq_ok_iff.mpr ⟨hrun, rfl⟩

theorem append {env₁ : Environment} {later : List (List Exhibit)}
    (h : Passes options env done blocks env₁) (hrest : Passes options env₁ rest later env') :
    Passes options env (done ++ rest) (blocks ++ later) env' := by
  induction h with
  | nil => exact hrest
  | cons run display _ ih => exact .cons run display (ih hrest)

theorem split (h : Passes options env (done ++ rest) blocks env') :
    ∃ env₁ earlier later, blocks = earlier ++ later ∧ Passes options env done earlier env₁ ∧
      Passes options env₁ rest later env' := by
  induction done generalizing env blocks with
  | nil => exact ⟨env, [], blocks, rfl, .nil, h⟩
  | cons p done ih =>
    cases h with
    | cons run display passes =>
      obtain ⟨env₁, earlier, later, rfl, hdone, hrest⟩ := ih passes
      exact ⟨env₁, _ :: earlier, later, rfl, .cons run display hdone, hrest⟩

theorem length_eq (h : Passes options env rest blocks env') : blocks.length = rest.length := by
  induction h with
  | nil => rfl
  | cons _ _ _ ih => rw [List.length_cons, List.length_cons, ih]

theorem display_eq (h : Passes options env rest blocks env') :
    env'.display = env.display ++ blocks.flatten := by
  induction h with
  | nil => exact (List.append_nil _).symm
  | cons _ display _ ih => rw [ih, display, List.flatten_cons, List.append_assoc]

theorem log_eq (h : Passes options env rest blocks env') : env'.log = env.log := by
  induction h with
  | nil => rfl
  | @cons env _ _ p _ _ _ run _ _ ih =>
    obtain ⟨e, rfl, -, -⟩ := Pipeline.exists_effect run
    exact ih

/-- What is displayed and logged already does not matter. -/
theorem of_registry_eq (h : Passes options env rest blocks env') {env₁ : Environment}
    (hcatalog : env₁.catalog = env.catalog) (hregistry : env₁.registry = env.registry) :
    ∃ env₂, Passes options env₁ rest blocks env₂ ∧ env₂.registry = env'.registry := by
  induction h generalizing env₁ with
  | nil => exact ⟨env₁, .nil, hregistry⟩
  | @cons env _ _ p _ block _ run display _ ih =>
    obtain ⟨e, rfl, -, hlocal⟩ := Pipeline.exists_effect run
    obtain rfl : block = e.exhibits := (List.append_cancel_left display).symm
    have hrun := hlocal env₁ ⟨hcatalog, fun _ _ => by rw [hregistry]⟩
    have hon : (e.on env₁).registry = (e.on env).registry := by
      rw [Effect.on, Effect.on, hregistry]
    obtain ⟨env₂, hpasses, heq⟩ := ih (show (e.on env₁).catalog = env.catalog from hcatalog) hon
    exact ⟨env₂, .cons hrun rfl hpasses, heq⟩

end Passes

/-- Neighbouring pipelines that are independent can change places in a run that gets to its end and
logs no progress: report, registry and log stay the same, and in the display the two blocks of
exhibits change places. -/
theorem run_swap {report : RunReport} (hquiet : options.verbose = false)
    (hindependent : Pipeline.Independent p q)
    (h : (done ++ [p, q] ++ rest).run options env = (env', .ok report)) :
    ∃ env₁ before ofP ofQ after,
      (done ++ [q, p] ++ rest).run options env = (env₁, .ok report) ∧
      env₁.registry = env'.registry ∧ env₁.log = env'.log ∧
      before.length = done.length ∧
      Passes options env (done ++ [p, q] ++ rest) (before ++ [ofP, ofQ] ++ after) env' ∧
      Passes options env (done ++ [q, p] ++ rest) (before ++ [ofQ, ofP] ++ after) env₁ ∧
      env'.display = env.display ++ (before ++ [ofP, ofQ] ++ after).flatten ∧
      env₁.display = env.display ++ (before ++ [ofQ, ofP] ++ after).flatten := by
  obtain ⟨hrun, rfl⟩ := run_eq_ok_iff.mp h
  obtain ⟨blocks, hpasses⟩ := passes_of_runFrom hquiet hrun
  obtain ⟨envB, first, after, rfl, hfirst, hafter⟩ := hpasses.split
  obtain ⟨envA, before, two, rfl, hbefore, htwo⟩ := hfirst.split
  cases htwo with
  | @cons _ env₁ _ _ _ blockP _ hp displayP htwo =>
  cases htwo with
  | @cons _ env₂ _ _ _ blockQ _ hq displayQ htwo =>
  cases htwo
  obtain ⟨ofP, ofQ, rfl, rfl, hq', hp', hregistry⟩ := hindependent.runs_either_way hp hq
  obtain rfl : blockP = ofP.exhibits := (List.append_cancel_left displayP).symm
  obtain rfl : blockQ = ofQ.exhibits := (List.append_cancel_left displayQ).symm
  have hcatalog : (ofP.on (ofQ.on envA)).catalog = envA.catalog := rfl
  obtain ⟨env₃, hafter', hsame⟩ := hafter.of_registry_eq hcatalog hregistry
  have hswapped : Passes options env (done ++ [q, p] ++ rest)
      (before ++ [ofQ.exhibits, ofP.exhibits] ++ after) env₃ :=
    (hbefore.append (.cons hq' rfl (.cons hp' rfl .nil))).append hafter'
  refine ⟨env₃, before, ofP.exhibits, ofQ.exhibits, after, ?_, hsame, ?_, hbefore.length_eq,
    hpasses, hswapped, hpasses.display_eq, hswapped.display_eq⟩
  · rw [hswapped.run_eq hquiet]
    simp
  · rw [hswapped.log_eq, hpasses.log_eq]

/-- Registers a dataset. -/
def keepsSingle : Pipeline := [.load "single", .notify "one"]

/-- Joins a table with itself and registers the result. -/
def joinsBase : Pipeline := [.join "base" "first" "base" "first", .notify "two"]

/-- Registers a table before some pipelines, and joins two after them. -/
def around (pipelines : Program) : Program :=
  [[.load "double", .notify "base"]] ++ pipelines ++ [[.join "one" "first" "two" "_join_"]]

theorem run_swap_around :
    ({} : RunOptions).verbose = false ∧ Pipeline.Independent keepsSingle joinsBase ∧
    ((around [keepsSingle, joinsBase]).run {} (.fresh Catalog.standard)).2 = .ok ⟨4, 0⟩ ∧
    ∃ env₁,
      (around [joinsBase, keepsSingle]).run {} (.fresh Catalog.standard) = (env₁, .ok ⟨4, 0⟩) ∧
      env₁.registry
        = ((around [keepsSingle, joinsBase]).run {} (.fresh Catalog.standard)).1.registry := by
  have hindependent : Pipeline.Independent keepsSingle joinsBase :=
    ⟨by decide, by decide, by decide⟩
  have hrun : ((around [keepsSingle, joinsBase]).run {} (.fresh Catalog.standard)).2
      = .ok ⟨4, 0⟩ := rfl
  obtain ⟨env₁, -, -, -, -, hswapped, hregistry, -⟩ :=
    run_swap rfl hindependent (Prod.ext rfl hrun)
  exact ⟨rfl, hindependent, hrun, env₁, hswapped, hregistry⟩

end Program

end TablePipeline
