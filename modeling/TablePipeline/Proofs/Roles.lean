import TablePipeline.Proofs.Stacks
/-!
# What blocks are for

Which stacks are read at all is decided by the roles of their topmost blocks. A role is looked up
in a table of its own, while a block is read as its type says. The tables agree (`Role.ofName_eq`),
and so a role says what can become of a block: a source or another stage, an expression, or nothing
(`Block.FollowsRole`). No stray stack could have been a pipeline that starts with a source, and
every other stack is one (`Workspace.compile_follows_roles`).
-/

namespace TablePipeline

theorem Kind.eq_unknown_of_role {kind : Kind} (h : kind.role = .unknown) : kind = .unknown := by
  cases kind with
  | unknown => rfl
  | dataset name | namedDataset | join | select | filter | mutate | group | summarize | notify
  | histogram | bar | scatter | number | text | missing | boolean | column | compare | arithmetic
  | aggregate f => cases h

namespace Block

variable {b head : Block} {id : String} {defaultBins stack : Nat} {stage : Stage} {e : Expr}
  {p : Pipeline}

/-! ### Stages -/

theorem toStage_of_expression (h : Role.ofName b.kind = .expression) :
    b.toStage defaultBins id = faulty id (.notStage b.kind) := by
  rw [Role.ofName_eq] at h
  unfold toStage
  cases hkind : Kind.ofName b.kind with
  | number | text | missing | boolean | column | compare | arithmetic | aggregate f => rfl
  | dataset name | namedDataset | join | select | filter | mutate | group | summarize | notify
  | histogram | bar | scatter | unknown =>
    rw [hkind] at h
    cases h

theorem toStage_of_unknown (h : Role.ofName b.kind = .unknown) :
    b.toStage defaultBins id = unknownKind id b.kind := by
  rw [Role.ofName_eq] at h
  rw [toStage, Kind.eq_unknown_of_role h]

/-- A block becomes a source if its role is that of a source, and another stage if it is that of a
stage. -/
theorem role_of_toStage (h : b.toStage defaultBins id = .ok stage) :
    Role.ofName b.kind = if stage.isSource then .source else .stage := by
  have hsource := toStage_isSource stage h
  rw [← Role.ofName_eq] at hsource
  cases hrole : Role.ofName b.kind with
  | source =>
    rw [hsource, hrole]
    rfl
  | stage =>
    rw [hsource, hrole]
    rfl
  | expression =>
    rw [toStage_of_expression hrole] at h
    cases h
  | unknown =>
    rw [toStage_of_unknown hrole, unknownKind] at h
    cases h

/-! ### Expressions -/

theorem role_of_rowExpr (h : b.rowExpr id = .ok e) : Role.ofName b.kind = .expression := by
  obtain ⟨name, kind, fields, next⟩ := b
  rw [Role.ofName_eq]
  rw [rowExpr] at h
  cases hkind : Kind.ofName kind with
  | number | text | missing | boolean | column | compare | arithmetic | aggregate f => rfl
  | dataset name | namedDataset | join | select | filter | mutate | group | summarize | notify
  | histogram | bar | scatter | unknown =>
    rw [hkind] at h
    cases h

theorem role_of_aggregateExpr (h : b.aggregateExpr id = .ok e) :
    Role.ofName b.kind = .expression := by
  rw [Role.ofName_eq]
  unfold aggregateExpr at h
  split at h
  · next f hkind => rw [hkind, Kind.role]
  · cases h

/-- What a block becomes is what its role says. -/
structure FollowsRole (b : Block) (defaultBins : Nat) (id : String) : Prop where
  stage : ∀ stage, b.toStage defaultBins id = .ok stage →
    Role.ofName b.kind = if stage.isSource then .source else .stage
  no_stage : Role.ofName b.kind = .expression ∨ Role.ofName b.kind = .unknown →
    ∃ e, b.toStage defaultBins id = .error e
  row : ∀ e, b.rowExpr id = .ok e → Role.ofName b.kind = .expression ∧ e.RowWise
  summary : ∀ e, b.aggregateExpr id = .ok e → Role.ofName b.kind = .expression ∧ e.IsAggregate

theorem followsRole (b : Block) (defaultBins : Nat) (id : String) :
    b.FollowsRole defaultBins id where
  stage _ h := role_of_toStage h
  no_stage h := by
    rcases h with h | h
    · exact ⟨_, toStage_of_expression h⟩
    · exact ⟨_, toStage_of_unknown h⟩
  row e h := ⟨role_of_rowExpr h, (rowExpr_yields id b e h).rowWise⟩
  summary e h := ⟨role_of_aggregateExpr h, (aggregateExpr_yields e h).isAggregate⟩

/-! ### Stacks -/

/-- A stack that can be read starts with a source if and only if its topmost block has that role. -/
theorem source_first_iff (h : stages defaultBins stack 0 head.chain = .ok p) :
    p.head?.any Stage.isSource = true ↔ Role.ofName head.kind = .source := by
  rw [chain_eq_cons] at h
  obtain ⟨stage, rest, rfl, hstage, -⟩ := stages_cons_eq_ok.mp h
  rw [role_of_toStage hstage, List.head?_cons, Option.any_some]
  cases stage.isSource with
  | true => simp
  | false => simp

/-- The pipeline of a stack of a source is what the stack is read as, and starts with that source. -/
theorem stages_of_hasPipeline (h : head.HasPipeline defaultBins p) :
    p.head?.any Stage.isSource = true ∧ ∀ stack, stages defaultBins stack 0 head.chain = .ok p := by
  have hrole := role_of_hasPipeline h
  have hstages : ∀ stack, stages defaultBins stack 0 head.chain = .ok p := fun stack => by
    have hp := h stack
    rwa [toPipeline, if_pos hrole] at hp
  exact ⟨(source_first_iff (hstages 0)).mpr ((Role.ofName_eq _).trans hrole), hstages⟩

end Block

namespace Workspace

/-- Every block becomes what its role says, whatever its type, its fields and the settings are. The
stacks of sources become the pipelines, each of which starts with a source, and the stacks of other
stages and of expressions are counted as stray. None of those could have started with a source. -/
theorem compile_follows_roles (defaultBins : Nat) :
    (∀ (b : Block) (id : String), b.FollowsRole defaultBins id) ∧
    (∀ (head : Block) (stack : Nat) (p : Pipeline),
      Block.stages defaultBins stack 0 head.chain = .ok p →
        (p.head?.any Stage.isSource = true ↔ Role.ofName head.kind = .source)) ∧
    ∀ (w : Workspace) (c : Compilation), w.compile defaultBins = .ok c →
      c.strayCount = (w.heads.filter fun head =>
        Role.ofName head.kind = .stage ∨ Role.ofName head.kind = .expression).length ∧
      List.Forall₂
        (fun head p => p.head?.any Stage.isSource = true ∧
          ∀ stack, Block.stages (max 1 defaultBins) stack 0 head.chain = .ok p)
        (w.heads.filter fun head => Role.ofName head.kind = .source) c.program := by
  refine ⟨fun b id => b.followsRole defaultBins id, fun head stack p => Block.source_first_iff,
    fun w c hc => ?_⟩
  obtain ⟨hprogram, hcount⟩ := compileStacks_eq_ok_iff.mp hc
  simp only [Role.ofName_eq]
  refine ⟨hcount, ?_⟩
  rw [filter_source_eq hc]
  exact hprogram.imp fun head p => Block.stages_of_hasPipeline

/-- The dataset of people, named by a field. -/
def peopleData : Block := .ofFields "data_user" [("name", .text "people")]

/-- A sum, which only a summary can use. -/
def sumOfAges : Block := .ofFields "stats_sum" [("Column", .text "age")]

/-- A difference, which only a row can use although its type starts like that of the sum. -/
def ageDifference : Block :=
  .ofFields "stats_arithmetic"
    [("OP", .text "SUB"), ("A", .block (.ofFields "variable_column" [("TEXT", .text "age")])),
      ("B", .block (.ofFields "variable_number" [("NUM", .number (.unsigned 18))]))]

/-- The ages summed up, between two stacks that are no pipelines. -/
def sumAmongExpressions : Workspace :=
  .ofChains [[ageDifference],
    [peopleData, .ofFields "dplyr_summarize" [("Column", .block sumOfAges)]], [sumOfAges]]

theorem sumAmongExpressions_roles :
    peopleData.toStage 10 "b" = .ok (.load "people") ∧
    Role.ofName peopleData.kind = (if (Stage.load "people").isSource then .source else .stage) ∧
    (∃ e, ageDifference.toStage 10 "b" = .error e) ∧
    (∃ e, ageDifference.rowExpr "b" = .ok e ∧
      Role.ofName ageDifference.kind = .expression ∧ e.RowWise) ∧
    (∃ e, sumOfAges.aggregateExpr "b" = .ok e ∧
      Role.ofName sumOfAges.kind = .expression ∧ e.IsAggregate) ∧
    (∃ p, Block.stages 10 0 0 ageDifference.chain = .error p) ∧
    ∃ c, sumAmongExpressions.compile 10 = .ok c ∧ c.strayCount = 2 ∧
      c.strayCount = (sumAmongExpressions.heads.filter fun head =>
        Role.ofName head.kind = .stage ∨ Role.ofName head.kind = .expression).length ∧
      List.Forall₂
        (fun head p => p.head?.any Stage.isSource = true ∧
          ∀ stack, Block.stages (max 1 10) stack 0 head.chain = .ok p)
        (sumAmongExpressions.heads.filter fun head => Role.ofName head.kind = .source)
        c.program := by
  obtain ⟨hblocks, hstacks, hworkspaces⟩ := compile_follows_roles 10
  have hpeople : peopleData.toStage 10 "b" = .ok (.load "people") := rfl
  refine ⟨hpeople, (hblocks peopleData "b").stage _ hpeople, ?_, ?_, ?_, ?_, ?_⟩
  · exact (hblocks ageDifference "b").no_stage (.inl rfl)
  · exact ⟨_, rfl, (hblocks ageDifference "b").row _ rfl⟩
  · exact ⟨_, rfl, (hblocks sumOfAges "b").summary _ rfl⟩
  · exact ⟨_, rfl⟩
  · exact ⟨_, rfl, rfl, hworkspaces _ _ rfl⟩

end Workspace

end TablePipeline
