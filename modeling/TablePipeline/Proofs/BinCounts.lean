import TablePipeline.Proofs.Failure
import TablePipeline.Proofs.ExactValue
import TablePipeline.Proofs.RoundTrip
/-!
# Bins of histograms

A number of bins is read from a block by way of a signed integer or, from `2^63` on, of a double
(`Stage.binsRead`). So it is kept up to there, and beyond if a double or the largest count is equal
to it.
-/

namespace TablePipeline

open Binary64 (roundHalfEven)
open Outcome (Returns)

/-- The content of a field is a number, itself or in a block that holds it. -/
inductive Field.HoldsNumber (n : Json.Number) : Field Block → Prop
  | bare : HoldsNumber n (.number n)
  | plugged {b : Block} (kind : b.kind = "variable_number")
      (number : b.fields.lookup "NUM" = some (.number n)) : HoldsNumber n (.block b)

namespace Stage

/-- The bins that are read where a block holds the given number of them. -/
def binsRead (n : Nat) : Nat :=
  if n < 0x8000000000000000 then n else min (roundHalfEven n 2048 * 2048) 0xffffffffffffffff

/-- A number of bins that is kept: one below `2^63`, a multiple of `2048`, or the largest count. -/
def KeepsBins (n : Nat) : Prop := n < 0x8000000000000000 ∨ 2048 ∣ n ∨ n = 0xffffffffffffffff

instance (n : Nat) : Decidable (KeepsBins n) :=
  inferInstanceAs (Decidable (n < 0x8000000000000000 ∨ 2048 ∣ n ∨ n = 0xffffffffffffffff))

theorem binsRead_eq_self_iff {n : Nat} (h : n < 0x10000000000000000) :
    binsRead n = n ↔ KeepsBins n := by
  have hround : 2048 ∣ n → roundHalfEven n 2048 = n / 2048 := by
    intro hdvd
    have hmod : n % 2048 = 0 := Nat.mod_eq_zero_of_dvd hdvd
    unfold roundHalfEven
    rw [hmod]
    rfl
  have hlower := Binary64.le_roundHalfEven n 2048
  unfold binsRead KeepsBins
  split
  · next hlt => exact iff_of_true rfl (.inl hlt)
  · next hle =>
    rw [or_iff_right hle]
    constructor
    · intro hmin
      by_cases hmax : n = 0xffffffffffffffff
      · exact .inr hmax
      · exact .inl ⟨roundHalfEven n 2048, by omega⟩
    · rintro (hdvd | rfl)
      · rw [hround hdvd, Nat.div_mul_cancel hdvd, Nat.min_eq_left (by omega)]
      · -- It is rounded up to `2 ^ 64`, which is cut down to it again.
        decide

/-- The bins of a stage that shows a histogram. -/
def bins? : Stage → Option Nat
  | .visualize plot => plot.bins?
  | _ => none

/-- The stage with the bins that are read from its block. -/
def readBack : Stage → Stage
  | .visualize (.histogram column bins) => .visualize (.histogram column (binsRead bins))
  | stage => stage

theorem readBack_eq_self_iff (stage : Stage) :
    stage.readBack = stage ↔ ∀ n ∈ stage.bins?, binsRead n = n := by
  cases stage with
  | visualize plot =>
    cases plot with
    | histogram column bins => simp [readBack, bins?, Plot.bins?]
    | bar x y | scatter x y color => exact iff_of_true rfl nofun
  | load s | select s | filter s | mutate s t | group s | summarize s | notify s | join s t u v =>
    exact iff_of_true rfl nofun

end Stage

namespace Block

open Stage (binsRead)

variable {n : UInt64} {defaultBins : Nat} {id column : String} {f : Field Block} {b : Block}

/-! ### Reading one number -/

theorem count?_valueOfNumber (h : 1 ≤ n.toNat) :
    count? (valueOfNumber (.unsigned n)) = some (binsRead n.toNat) := by
  by_cases hlt : n.toNat < 0x8000000000000000
  · obtain ⟨i, hvalue, heq⟩ := valueOfNumber_unsigned_of_lt hlt
    rw [hvalue, count?, heq, if_pos (by omega), Int.toNat_natCast, binsRead, if_pos hlt]
  · have hle := Nat.le_of_not_lt hlt
    have hvalue : valueOfNumber (.unsigned n) = .float (Binary64.ofInt n.toNat) := by
      unfold valueOfNumber
      rw [Json.Number.toSigned?_unsigned_of_le hle]
    have hround := Binary64.le_roundHalfEven n.toNat 2048
    rw [hvalue, count?, Binary64.toInt?_ofNat_of_le hle (UInt64.toNat_lt n)]
    dsimp only
    rw [if_pos (by omega), Int.toNat_natCast, binsRead, if_neg hlt]

theorem binValue_of_holdsNumber {number : Json.Number} (hf : f.HoldsNumber number) :
    binValue id f = .ok (valueOfNumber number) := by
  cases hf with
  | bare => rfl
  | @plugged b hkind hnumber =>
    obtain ⟨name, kind, fields, next⟩ := b
    obtain rfl : kind = "variable_number" := hkind
    have hfield (inner : String) :
        required ⟨name, "variable_number", fields, next⟩ inner "NUM" = .ok (.number number) := by
      rw [required, hnumber]
    have hrow (inner : String) : rowExpr inner ⟨name, "variable_number", fields, next⟩
        = .ok (.literal (valueOfNumber number)) := by
      rw [rowExpr]
      change (do return Expr.literal (← numberOf inner "NUM" (← required _ inner "NUM"))) = _
      rw [hfield]
      rfl
    rw [binValue, hrow]
    rfl

theorem binCount_of_holdsNumber (hn : 1 ≤ n.toNat) (hf : f.HoldsNumber (.unsigned n)) :
    binCount id f = .ok (binsRead n.toNat) := by
  rw [binCount, binValue_of_holdsNumber hf, Outcome.ok_bind, count?_valueOfNumber hn]
  rfl

/-- The block of a histogram with a column and a number of bins. -/
theorem toStage_of_holdsNumber (hn : 1 ≤ n.toNat) (hkind : b.kind = "ggplot_hist")
    (hcolumn : b.columnField id "Column" = .ok column)
    (hbins : b.fields.lookup "bins" = some f) (hf : f.HoldsNumber (.unsigned n)) :
    b.toStage defaultBins id = .ok (.visualize (.histogram column (binsRead n.toNat))) := by
  have hhist : Kind.ofName b.kind = .histogram := by
    rw [hkind]
    rfl
  unfold toStage
  rw [hhist]
  dsimp only
  rw [hcolumn, hbins, Outcome.ok_bind]
  dsimp only
  rw [binCount_of_holdsNumber hn hf]
  rfl

/-! ### Reading the blocks of stages -/

theorem binCount_ofNumber_of_lt {bins : Nat} (h : bins < 0x10000000000000000) :
    Returns (binsRead bins) (1 ≤ bins)
      (binCount id (.block (ofNumber (.unsigned bins.toUInt64)))) := by
  rcases Nat.eq_zero_or_pos bins with rfl | hpos
  · exact binCount_ofNumber (Nat.zero_le _)
  · have hnat : bins.toUInt64.toNat = bins := by
      rw [Nat.toUInt64_eq, UInt64.toNat_ofNat', Nat.mod_eq_of_lt h]
    have hholds : Field.HoldsNumber (.unsigned bins.toUInt64)
        (.block (ofNumber (.unsigned bins.toUInt64))) := .plugged rfl (lookup_ofFields rfl)
    rw [binCount_of_holdsNumber (by omega) hholds, hnat]
    exact Returns.ok.congr (iff_of_true trivial hpos)

theorem readAs_readBack {stage : Stage} (hbins : ∀ n ∈ stage.bins?, n < 0x10000000000000000) :
    ReadAs defaultBins Stage.readBack stage := by
  cases stage with
  | visualize plot =>
    cases plot with
    | histogram column bins =>
      refine ⟨fun id => ?_, rfl, rfl⟩
      have hlookup : (ofStage (.visualize (.histogram column bins))).fields.lookup "bins"
          = some (.block (ofNumber (.unsigned bins.toUInt64))) := lookup_ofFields rfl
      refine (columnField_ofFields rfl).bind ?_
      rw [hlookup]
      exact (binCount_ofNumber_of_lt (hbins bins rfl)).map rfl
    | bar x y | scatter x y color => exact ⟨fun _ => toStage_ofStage trivial, rfl, rfl⟩
  | load s | select s | filter s | mutate s t | group s | summarize s | notify s | join s t u v =>
    exact ⟨fun _ => toStage_ofStage trivial, rfl, rfl⟩

end Block

namespace Program

variable {p : Program}

/-- The bins of all histograms of a program. -/
def bins (p : Program) : List Nat := p.flatMap (·.filterMap Stage.bins?)

/-- The program with the bins that are read from its workspace. -/
def readBack (p : Program) : Program := p.map (·.map Stage.readBack)

theorem forall_mem_bins {P : Nat → Prop} :
    (∀ n ∈ p.bins, P n) ↔ ∀ pipeline ∈ p, ∀ stage ∈ pipeline, ∀ n ∈ stage.bins?, P n := by
  simp only [bins, List.mem_flatMap, List.mem_filterMap, Option.mem_def]
  exact ⟨fun h pipeline hp stage hs n hn => h n ⟨pipeline, hp, stage, hs, hn⟩,
    fun h n ⟨pipeline, hp, stage, hs, hn⟩ => h pipeline hp stage hs n hn⟩

theorem map_eq_self_iff {α : Type} {f : α → α} {l : List α} :
    l.map f = l ↔ ∀ a ∈ l, f a = a := by
  have h : l.map f = l.map id ↔ ∀ a ∈ l, f a = id a := List.map_inj_left
  rwa [List.map_id] at h

theorem readBack_eq_self_iff : p.readBack = p ↔ ∀ n ∈ p.bins, Stage.binsRead n = n := by
  rw [forall_mem_bins, readBack, map_eq_self_iff]
  refine forall₂_congr fun pipeline _ => ?_
  rw [map_eq_self_iff]
  exact forall₂_congr fun stage _ => stage.readBack_eq_self_iff

/-- A well-formed program comes back from its workspace with the bins that are read. -/
theorem compile_ofProgram_readBack (h : p.WellFormed)
    (hbins : ∀ n ∈ p.bins, n < 0x10000000000000000) :
    (Workspace.ofProgram p).compile Workspace.standardBins
      = .ok { program := p.readBack, strayCount := 0 } :=
  Workspace.compileStacks_of_readAs
    (fun pipeline hp stage hs =>
      Block.readAs_readBack (forall_mem_bins.mp hbins pipeline hp stage hs)) h

end Program

namespace Workspace

open Stage (KeepsBins binsRead)

/-- A histogram block with a column and a number of bins from one on stands for the histogram with
the bins that are read, and a well-formed program comes back from its workspace with the bins that
are read. These are the ones that the block and the program had if and only if they are kept. -/
theorem compile_bins (n : UInt64) (hn : 1 ≤ n.toNat) :
    (∀ (b : Block) (f : Field Block) (defaultBins : Nat) (id column : String),
      b.kind = "ggplot_hist" → b.columnField id "Column" = .ok column →
      b.fields.lookup "bins" = some f → f.HoldsNumber (.unsigned n) →
      b.toStage defaultBins id = .ok (.visualize (.histogram column (binsRead n.toNat))) ∧
      (b.toStage defaultBins id = .ok (.visualize (.histogram column n.toNat)) ↔
        KeepsBins n.toNat)) ∧
    ∀ p : Program, p.WellFormed → (∀ k ∈ p.bins, k < 0x10000000000000000) →
      (ofProgram p).compile standardBins = .ok { program := p.readBack, strayCount := 0 } ∧
      ((ofProgram p).compile standardBins = .ok { program := p, strayCount := 0 } ↔
        ∀ k ∈ p.bins, KeepsBins k) := by
  refine ⟨fun b f defaultBins id column hkind hcolumn hbins hf => ?_, fun p hp hbins => ?_⟩
  · have hstage : b.toStage defaultBins id
        = .ok (.visualize (.histogram column (binsRead n.toNat))) :=
      Block.toStage_of_holdsNumber hn hkind hcolumn hbins hf
    refine ⟨hstage, ?_⟩
    rw [hstage, ← Stage.binsRead_eq_self_iff (UInt64.toNat_lt n)]
    simp
  · have hcompile := Program.compile_ofProgram_readBack hp hbins
    refine ⟨hcompile, ?_⟩
    rw [hcompile, Except.ok.injEq, Compilation.mk.injEq, and_iff_left rfl,
      Program.readBack_eq_self_iff]
    exact forall₂_congr fun k hk => Stage.binsRead_eq_self_iff (hbins k hk)

/-- As many bins as there can be, in a block of their own, and a program with five. -/
theorem compile_bins_agesOverThirty :
    1 ≤ (0xffffffffffffffff : UInt64).toNat ∧
    (Block.ofFields "ggplot_hist" [("Column", .text "age"),
      ("bins", .block (.ofNumber (.unsigned 0xffffffffffffffff)))]).toStage standardBins "#0.1"
        = .ok (.visualize (.histogram "age" (0xffffffffffffffff : UInt64).toNat)) ∧
    (ofProgram agesOverThirty).compile standardBins
      = .ok { program := agesOverThirty, strayCount := 0 } := by
  have hpos : 1 ≤ (0xffffffffffffffff : UInt64).toNat := by decide
  obtain ⟨hblock, hprogram⟩ := compile_bins 0xffffffffffffffff hpos
  have hnumber : (Field.block (.ofNumber (.unsigned 0xffffffffffffffff))).HoldsNumber
      (.unsigned 0xffffffffffffffff) := .plugged rfl rfl
  obtain ⟨-, hread⟩ := hblock
    (.ofFields "ggplot_hist" [("Column", .text "age"),
      ("bins", .block (.ofNumber (.unsigned 0xffffffffffffffff)))])
    _ standardBins "#0.1" "age" rfl rfl rfl hnumber
  obtain ⟨-, hback⟩ := hprogram agesOverThirty (by decide) (by decide)
  exact ⟨hpos, hread.mpr (by decide), hback.mpr (by decide)⟩

/-- Ages in one bin more than `2^63`. -/
def agesInManyBins : Program :=
  [[.load "people", .visualize (.histogram "age" 0x8000000000000001)]]

/-- A program that loses a bin on its way through a workspace, and a block that loses it. -/
theorem agesInManyBins_lose_one :
    agesInManyBins.WellFormed ∧
    (∀ n ∈ agesInManyBins.bins, n < 0x10000000000000000) ∧
    (ofProgram agesInManyBins).compile standardBins = .ok
      { program := [[.load "people", .visualize (.histogram "age" 0x8000000000000000)]],
        strayCount := 0 } ∧
    (Block.ofFields "ggplot_hist"
      [("Column", .text "age"), ("bins", .number (.unsigned 0x8000000000000001))]).toStage
        standardBins "#0.1" = .ok (.visualize (.histogram "age" 0x8000000000000000)) ∧
    (Block.ofFields "ggplot_hist"
      [("Column", .text "age"), ("bins", .number (.unsigned 0x8000000000000001))]).toStage
        standardBins "#0.1" ≠ .ok (.visualize (.histogram "age" 0x8000000000000001)) := by
  decide +kernel

end Workspace

end TablePipeline
