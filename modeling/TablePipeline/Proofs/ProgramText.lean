import TablePipeline.Proofs.RoundTrip
import TablePipeline.Proofs.WorkspaceText
/-!
# From programs to texts and back

The blocks of a well-formed program are proper, so that only its doubles and its nesting can keep it
from being read back. How deep it nests is known stage by stage.
-/

namespace TablePipeline

open Json (nesting itemsNesting membersNesting textNesting)

section Floats

/-- A double is read back from the number that is written for it. -/
def Value.FloatsReadBack : Value → Prop
  | .float x => ∀ n ∈ Json.Number.ofFloat? x, n.ReadsBack
  | .missing | .bool _ | .int _ | .text _ => True

instance : (v : Value) → Decidable v.FloatsReadBack
  | .float x => inferInstanceAs (Decidable (∀ n ∈ Json.Number.ofFloat? x, n.ReadsBack))
  | .missing | .bool _ | .int _ | .text _ => inferInstanceAs (Decidable True)

def Expr.FloatsReadBack : Expr → Prop
  | .literal v => v.FloatsReadBack
  | .column _ | .aggregate .. => True
  | .compare _ left right | .arithmetic _ left right =>
    left.FloatsReadBack ∧ right.FloatsReadBack

instance Expr.decidableFloatsReadBack : (e : Expr) → Decidable e.FloatsReadBack
  | .literal v => inferInstanceAs (Decidable v.FloatsReadBack)
  | .column _ | .aggregate .. => inferInstanceAs (Decidable True)
  | .compare _ left right | .arithmetic _ left right =>
    have := decidableFloatsReadBack left
    have := decidableFloatsReadBack right
    inferInstanceAs (Decidable (left.FloatsReadBack ∧ right.FloatsReadBack))

def Stage.FloatsReadBack : Stage → Prop
  | .filter e | .mutate _ e => e.FloatsReadBack
  | .summarize es => ∀ e ∈ es, e.FloatsReadBack
  | .load _ | .select _ | .group _ | .notify _ | .join .. | .visualize _ => True

instance : (stage : Stage) → Decidable stage.FloatsReadBack
  | .filter e | .mutate _ e => inferInstanceAs (Decidable e.FloatsReadBack)
  | .summarize es => inferInstanceAs (Decidable (∀ e ∈ es, e.FloatsReadBack))
  | .load _ | .select _ | .group _ | .notify _ | .join .. | .visualize _ =>
    inferInstanceAs (Decidable True)

def Program.FloatsReadBack (p : Program) : Prop :=
  ∀ pipeline ∈ p, ∀ stage ∈ pipeline, stage.FloatsReadBack

instance (p : Program) : Decidable p.FloatsReadBack :=
  inferInstanceAs (Decidable (∀ pipeline ∈ p, ∀ stage ∈ pipeline, stage.FloatsReadBack))

end Floats

namespace Block

variable {P : Json → Prop} {kind : String} {fields : List (String × Field Block)}

theorem proper_ofFields (h : ∀ e ∈ fields, ProperField P e.2) :
    (ofFields kind fields).Proper P := by
  refine ⟨sortedByName_sortByName fields, properFields_iff.mpr ?_, trivial⟩
  exact fun e he => h e (mem_of_mem_sortByName he)

theorem proper_ofColumn (name : String) : (ofColumn name).Proper P :=
  proper_ofFields (by simp [ProperField])

theorem proper_ofNumber {n : Json.Number} (h : n.ReadsBack) : (ofNumber n).Proper P :=
  proper_ofFields (by simpa [ProperField] using h)

theorem proper_ofValue {v : Value} (h : v.FloatsReadBack) : (ofValue v).Proper P := by
  cases v with
  | missing | bool b | text s => exact proper_ofFields (by simp [ProperField])
  | int n => exact proper_ofNumber (Json.readsBack_ofSigned n)
  | float x =>
    change (ofFloat x).Proper P
    unfold ofFloat
    split
    · next n hn => exact proper_ofNumber (h n hn)
    · exact proper_ofFields (by simp [ProperField])

theorem proper_ofExpr {e : Expr} (h : e.FloatsReadBack) : (ofExpr e).Proper P := by
  induction e with
  | literal v => exact proper_ofValue h
  | column name => exact proper_ofColumn name
  | compare op left right ihl ihr | arithmetic op left right ihl ihr =>
    have hleft := ihl h.1
    have hright := ihr h.2
    exact proper_ofFields (by simp [ProperField, hleft, hright])
  | aggregate f name =>
    have hcolumn := proper_ofColumn (P := P) name
    exact proper_ofFields (by simp [ProperField, hcolumn])

theorem proper_ofPlot (plot : Plot) : (ofPlot plot).Proper P := by
  have hcolumn := proper_ofColumn (P := P)
  cases plot with
  | histogram column bins =>
    have hbins := proper_ofNumber (P := P) (Json.readsBack_unsigned bins.toUInt64)
    exact proper_ofFields (by simp [ProperField, hcolumn, hbins])
  | bar x y => exact proper_ofFields (by simp [ProperField, hcolumn])
  | scatter x y color =>
    cases color with
    | none => exact proper_ofFields (by simp [ProperField, hcolumn])
    | some c => exact proper_ofFields (by simp [ProperField, hcolumn])

theorem proper_ofStage {stage : Stage} (hformed : stage.WellFormed) (h : stage.FloatsReadBack) :
    (ofStage stage).Proper P := by
  have hcolumn := proper_ofColumn (P := P)
  cases stage with
  | load name | notify name => exact proper_ofFields (by simp [ProperField])
  | select columns =>
    have hcolumns : ProperBlocks P (columns.names.map ofColumn) :=
      properBlocks_iff.mpr (List.forall_mem_map.mpr fun name _ => hcolumn name)
    exact proper_ofFields (by simp [ProperField, hformed.1, hcolumns])
  | filter e =>
    have he := proper_ofExpr (P := P) h
    exact proper_ofFields (by simp [ProperField, he])
  | mutate column e =>
    have he := proper_ofExpr (P := P) h
    exact proper_ofFields (by simp [ProperField, he])
  | group column => exact proper_ofFields (by simp [ProperField, hcolumn])
  | summarize es =>
    have hes : ProperBlocks P (es.map ofExpr) :=
      properBlocks_iff.mpr (List.forall_mem_map.mpr fun e he => proper_ofExpr (h e he))
    exact proper_ofFields (by simp [ProperField, hformed.1, hes])
  | join a b c d => exact proper_ofFields (by simp [ProperField, hcolumn])
  | visualize plot => exact proper_ofPlot plot

theorem properNext_stack? {bs : List Block} (h : ∀ b ∈ bs, b.Proper P) :
    ProperNext P (stack? bs) := by
  induction bs with
  | nil => trivial
  | cons b rest ih =>
    obtain ⟨hb, hrest⟩ := List.forall_mem_cons.mp h
    obtain ⟨id, kind, fields, next⟩ := b
    obtain ⟨hsorted, hfields, -⟩ := hb
    exact ⟨hsorted, hfields, ih hrest⟩

/-- What is put below a block opens one deeper than the block. -/
theorem nesting_below_le {b : Block} {next : Option Block} {d n : Nat} (hb : b.next = none) :
    d + ({ b with next } : Block).toJson.nesting ≤ n ↔
      d + b.toJson.nesting ≤ n ∧ ∀ c ∈ next, d + 1 + c.toJson.nesting ≤ n := by
  obtain ⟨id, kind, fields, below⟩ := b
  subst hb
  cases next with
  | none => simp
  | some c =>
    simp only [Option.mem_def, Option.some.injEq, forall_eq']
    cases id <;> cases fields <;>
      simp only [Block.toJson, nextToJson, nesting, membersNesting, List.cons_append,
        List.nil_append] <;>
      omega

theorem next_ofStage (stage : Stage) : (ofStage stage).next = none := by
  cases stage with
  | visualize plot => cases plot <;> rfl
  | load s | select s | filter s | mutate s t | group s | summarize s | notify s | join s t u v =>
    rfl

/-- A stack of stages that opens `d` deep nests as deep as one of its stages, where the stage at
place `k` opens `d + k` deep. -/
theorem nesting_stack?_le {stages : List Stage} {d n : Nat} :
    (∀ b ∈ stack? (stages.map ofStage), d + b.toJson.nesting ≤ n) ↔
      ∀ (k : Nat) (stage : Stage), stages[k]? = some stage →
        d + k + (ofStage stage).toJson.nesting ≤ n := by
  induction stages generalizing d with
  | nil => simp [stack?]
  | cons stage rest ih =>
    have hplaces : (∀ (k : Nat) (found : Stage), (stage :: rest)[k]? = some found →
        d + k + (ofStage found).toJson.nesting ≤ n) ↔
          d + (ofStage stage).toJson.nesting ≤ n ∧
            ∀ (k : Nat) (found : Stage), rest[k]? = some found →
              d + 1 + k + (ofStage found).toJson.nesting ≤ n := by
      constructor
      · intro h
        refine ⟨h 0 stage rfl, fun k found hfound => ?_⟩
        have hnext := h (k + 1) found hfound
        omega
      · rintro ⟨hstage, hrest⟩ k found hfound
        cases k with
        | zero =>
          cases hfound
          exact hstage
        | succ k =>
          have hnext := hrest k found hfound
          omega
    rw [hplaces, ← ih, List.map_cons, stack?]
    simp only [Option.mem_def, Option.some.injEq, forall_eq',
      nesting_below_le (next_ofStage stage)]

end Block

namespace Workspace

variable {p : Program}

theorem mem_heads_ofProgram {b : Block} :
    b ∈ (ofProgram p).heads ↔
      ∃ pipeline ∈ p, b ∈ Block.stack? (pipeline.map Block.ofStage) := by
  simp [ofProgram, ofChains, List.mem_filterMap]

theorem proper_ofProgram (hformed : p.WellFormed) (h : p.FloatsReadBack) :
    ProperBlocks Json.Settled (ofProgram p).heads := by
  refine properBlocks_iff.mpr fun b hb => ?_
  obtain ⟨pipeline, hpipeline, hb⟩ := mem_heads_ofProgram.mp hb
  have hstages : ∀ s ∈ pipeline.map Block.ofStage, s.Proper Json.Settled := by
    refine List.forall_mem_map.mpr fun stage hstage => ?_
    exact Block.proper_ofStage ((hformed pipeline hpipeline).stages stage hstage)
      (h pipeline hpipeline stage hstage)
  have hnext := Block.properNext_stack? hstages
  rw [Option.mem_def.mp hb] at hnext
  exact hnext

theorem nesting_toJson_le {w : Workspace} {n : Nat} :
    w.toJson.nesting ≤ n ↔ 2 ≤ n ∧ ∀ b ∈ w.heads, 2 + b.toJson.nesting ≤ n := by
  have hitems (m : Nat) :
      itemsNesting (blocksToJson w.heads) ≤ m ↔ ∀ b ∈ w.heads, b.toJson.nesting ≤ m := by
    rw [Json.itemsNesting_le, blocksToJson_eq, List.forall_mem_map]
  rw [w.nesting_toJson]
  constructor
  · intro h
    refine ⟨by omega, fun b hb => ?_⟩
    have hdeep := (hitems (n - 2)).mp (by omega) b hb
    omega
  · rintro ⟨hn, hheads⟩
    have hdeep := (hitems (n - 2)).mpr fun b hb => by
      have hb := hheads b hb
      omega
    omega

theorem nesting_ofProgram_le {n : Nat} :
    (ofProgram p).toJson.nesting ≤ n ↔
      2 ≤ n ∧ ∀ pipeline ∈ p, ∀ (k : Nat) (stage : Stage), pipeline[k]? = some stage →
        2 + k + (Block.ofStage stage).toJson.nesting ≤ n := by
  rw [nesting_toJson_le]
  refine and_congr_right fun _ => ?_
  constructor
  · intro h pipeline hpipeline
    refine Block.nesting_stack?_le.mp fun b hb => ?_
    exact h b (mem_heads_ofProgram.mpr ⟨pipeline, hpipeline, hb⟩)
  · intro h b hb
    obtain ⟨pipeline, hpipeline, hb⟩ := mem_heads_ofProgram.mp hb
    exact Block.nesting_stack?_le.mpr (h pipeline hpipeline) b hb

/-- A well-formed program whose doubles read back is read from its text if and only if the brackets
of the text nest at most 127 deep, and comes back as it is. They nest as deep as the blocks of the
stages let them, where the block of the stage at place `k` of a pipeline opens `3 + k` deep. -/
theorem parse?_text_ofProgram (p : Program) (hformed : p.WellFormed) (hbins : p.BinsFit)
    (hfloats : p.FloatsReadBack) :
    ((parse? (ofProgram p).text).isSome = true ↔ textNesting (ofProgram p).text ≤ 127) ∧
    (∀ n, textNesting (ofProgram p).text ≤ n ↔
      2 ≤ n ∧ ∀ pipeline ∈ p, ∀ (k : Nat) (stage : Stage), pipeline[k]? = some stage →
        2 + k + (Block.ofStage stage).toJson.nesting ≤ n) ∧
    ∀ w, parse? (ofProgram p).text = some w →
      ∃ c, w.compile standardBins = .ok c ∧ c.program = p ∧ (c.program == p) = true ∧
        c.strayCount = 0 := by
  have hproper := proper_ofProgram hformed hfloats
  have hreads := parse?_text hproper
  refine ⟨hreads.isSome, fun n => ?_, fun w hw => ?_⟩
  · rw [textNesting_text hproper, nesting_ofProgram_le]
  · obtain ⟨rfl, -⟩ := (hreads w).mp hw
    have hback : (ofProgram p).compile standardBins = .ok { program := p, strayCount := 0 } :=
      compileStacks_of_wellFormed hbins hformed
    exact ⟨_, hback, rfl, hformed.beq_self, rfl⟩

/-- The weights above a half, by height. -/
def weightsOverHalf : Program :=
  [[.load "parts", .filter (.compare .gt (.column "weight") (.literal (.float 0.5))),
    .visualize (.scatter "height" "weight" none)]]

theorem parse?_text_weightsOverHalf :
    weightsOverHalf.FloatsReadBack ∧ (parse? (ofProgram weightsOverHalf).text).isSome = true := by
  have hformed : weightsOverHalf.WellFormed := by decide +kernel
  have hfloats : weightsOverHalf.FloatsReadBack := by decide +kernel
  have hreads := parse?_text_ofProgram weightsOverHalf hformed (by decide) hfloats
  refine ⟨hfloats, hreads.1.mpr ?_⟩
  rw [textNesting_text (proper_ofProgram hformed hfloats)]
  decide +kernel

end Workspace

end TablePipeline
