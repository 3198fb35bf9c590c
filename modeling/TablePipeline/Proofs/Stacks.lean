import TablePipeline.Proofs.Erasure
/-!
# Which stacks become pipelines

A stack that does not start with a source is stray and left alone. Every other one has to become a
pipeline, which does not depend on the stacks around it (`Block.HasPipeline`). A workspace compiles
to the pipelines of these stacks, in order (`Workspace.compileStacks_eq_ok_iff`), or fails with the
fault of the first one that has none (`Workspace.compileStacks_eq_error_iff`). So stray stacks can
come and go, and a fault is always one of a block of that stack, which its name points at.
-/

namespace TablePipeline

open Outcome (Matches bind_eq_ok bind_eq_error)

/-! ### One stack -/

namespace Block

variable {defaultBins stack stack' : Nat} {head : Block} {p : Pipeline} {e : CompileError}

/-- The stack becomes the pipeline, wherever it stands. -/
def HasPipeline (defaultBins : Nat) (head : Block) (p : Pipeline) : Prop :=
  ∀ stack, head.toPipeline defaultBins stack = .ok p

theorem toPipeline_renumbered (defaultBins stack stack' : Nat) (head : Block) :
    Matches False Eq (SameFaultIn head stack head stack') (head.toPipeline defaultBins stack)
      (head.toPipeline defaultBins stack') :=
  toPipeline_matches (List.forall₂_same.mpr fun b _ => Alike.refl b)

theorem hasPipeline_iff : head.HasPipeline defaultBins p ↔
    head.toPipeline defaultBins stack = .ok p := by
  refine ⟨fun h => h stack, fun h stack' => ?_⟩
  obtain ⟨_, hp, rfl⟩ := (toPipeline_renumbered defaultBins stack stack' head).keeps p h
  exact hp

theorem not_hasPipeline_of_error (h : head.toPipeline defaultBins stack = .error e) :
    ¬ ∃ p, head.HasPipeline defaultBins p := by
  rintro ⟨p, hp⟩
  rw [hp stack] at h
  cases h

/-- A fault of a stack is the same wherever the stack stands, and of the same block in it. -/
theorem toPipeline_error_renumbered (h : head.toPipeline defaultBins stack = .error e)
    (stack' : Nat) : ∃ e', head.toPipeline defaultBins stack' = .error e' ∧ e'.fault = e.fault ∧
      ∃ depth sockets b, head.calledIn? stack depth sockets = some (b, e.block) ∧
        head.calledIn? stack' depth sockets = some (b, e'.block) := by
  obtain ⟨e', he', hfault, depth, sockets, b, b', hb, hb'⟩ :=
    (toPipeline_renumbered defaultBins stack stack' head).exists_error h
  refine ⟨e', he', hfault.symm, depth, sockets, b, hb, ?_⟩
  obtain ⟨root, hroot, hcalled⟩ := calledIn?_eq_some.mp hb
  obtain ⟨root', hroot', hcalled'⟩ := calledIn?_eq_some.mp hb'
  obtain rfl : root' = root := Option.some.inj (hroot'.symm.trans hroot)
  obtain rfl : b = b' := block_eq_of_called? hcalled hcalled'
  exact hb'

theorem role_of_hasPipeline (h : head.HasPipeline defaultBins p) :
    (Kind.ofName head.kind).role = .source := by
  have hp := h 0
  unfold toPipeline at hp
  split at hp
  · assumption
  · cases hp

end Block

/-! ### Stacks in order -/

namespace Workspace

variable {defaultBins stack : Nat} {heads : List Block} {c : Compilation} {e : CompileError}

theorem compileStacks_eq_ok_iff : compileStacks defaultBins stack heads = .ok c ↔
    List.Forall₂ (Block.HasPipeline defaultBins) (heads.filter (!·.isStray)) c.program ∧
      c.strayCount = (heads.filter (·.isStray)).length := by
  induction heads generalizing stack c with
  | nil =>
    obtain ⟨program, strayCount⟩ := c
    rw [compileStacks, Except.ok.injEq, Compilation.mk.injEq, List.filter_nil, List.filter_nil,
      List.forall₂_nil_left_iff]
    exact and_congr eq_comm eq_comm
  | cons head rest ih =>
    rw [compileStacks_cons, List.filter_cons, List.filter_cons]
    cases head.isStray with
    | true =>
      constructor
      · intro h
        obtain ⟨c', hc', h⟩ := bind_eq_ok.mp h
        cases h
        obtain ⟨hprogram, hcount⟩ := ih.mp hc'
        exact ⟨hprogram, congrArg Nat.succ hcount⟩
      · rintro ⟨hprogram, hcount⟩
        obtain ⟨program, strayCount⟩ := c
        obtain rfl : strayCount = (rest.filter (·.isStray)).length + 1 := hcount
        have hrest : compileStacks defaultBins (stack + 1) rest
            = .ok ⟨program, (rest.filter (·.isStray)).length⟩ := ih.mpr ⟨hprogram, rfl⟩
        exact bind_eq_ok.mpr ⟨_, hrest, rfl⟩
    | false =>
      constructor
      · intro h
        obtain ⟨pipeline, hpipeline, h⟩ := bind_eq_ok.mp h
        obtain ⟨c', hc', h⟩ := bind_eq_ok.mp h
        cases h
        obtain ⟨hprogram, hcount⟩ := ih.mp hc'
        exact ⟨.cons (Block.hasPipeline_iff.mpr hpipeline) hprogram, hcount⟩
      · rintro ⟨hprogram, hcount⟩
        obtain ⟨program, strayCount⟩ := c
        cases hprogram with
        | @cons _ pipeline _ program hhead hprogram =>
          have hrest : compileStacks defaultBins (stack + 1) rest
              = .ok ⟨program, strayCount⟩ := ih.mpr ⟨hprogram, hcount⟩
          exact bind_eq_ok.mpr ⟨pipeline, hhead stack, bind_eq_ok.mpr ⟨_, hrest, rfl⟩⟩

/-- The fault is that of the first stack which is not stray and has no pipeline. -/
theorem compileStacks_eq_error_iff : compileStacks defaultBins stack heads = .error e ↔
    ∃ before head after, heads = before ++ head :: after ∧
      (∀ b ∈ before, b.isStray = false → ∃ p, b.HasPipeline defaultBins p) ∧
      head.isStray = false ∧
      head.toPipeline defaultBins (stack + before.length) = .error e := by
  induction heads generalizing stack with
  | nil => simp [compileStacks]
  | cons head rest ih =>
    have hlater (h : compileStacks defaultBins (stack + 1) rest = .error e)
        (hhead : head.isStray = false → ∃ p, head.HasPipeline defaultBins p) :
        ∃ before bad after, head :: rest = before ++ bad :: after ∧
          (∀ b ∈ before, b.isStray = false → ∃ p, b.HasPipeline defaultBins p) ∧
          bad.isStray = false ∧ bad.toPipeline defaultBins (stack + before.length) = .error e := by
      obtain ⟨before, bad, after, rfl, hbefore, hbad, he⟩ := ih.mp h
      rw [Nat.add_right_comm] at he
      exact ⟨head :: before, bad, after, rfl, List.forall_mem_cons.mpr ⟨hhead, hbefore⟩, hbad, he⟩
    rw [compileStacks_cons]
    constructor
    · intro h
      split at h
      · next hstray =>
        rcases bind_eq_error.mp h with h | ⟨c, -, h⟩
        · exact hlater h fun hfalse => absurd (hstray.symm.trans hfalse) (by decide)
        · cases h
      · next hstray =>
        rcases bind_eq_error.mp h with h | ⟨p, hp, h⟩
        · exact ⟨[], head, rest, rfl, List.forall_mem_nil _, by simpa using hstray, h⟩
        rcases bind_eq_error.mp h with h | ⟨c, -, h⟩
        · exact hlater h fun _ => ⟨p, Block.hasPipeline_iff.mpr hp⟩
        · cases h
    · rintro ⟨before, bad, after, hsplit, hbefore, hbad, he⟩
      cases before with
      | nil =>
        obtain ⟨rfl, rfl⟩ := List.cons.inj hsplit
        rw [hbad, if_neg Bool.false_ne_true]
        exact bind_eq_error.mpr (.inl he)
      | cons first before =>
        obtain ⟨rfl, rfl⟩ := List.cons.inj hsplit
        obtain ⟨hfirst, hbefore⟩ := List.forall_mem_cons.mp hbefore
        rw [List.length_cons, ← Nat.add_assoc, Nat.add_right_comm] at he
        have hrest := ih.mpr ⟨before, bad, after, rfl, hbefore, hbad, he⟩
        split
        · exact bind_eq_error.mpr (.inl hrest)
        · next hstray =>
          obtain ⟨p, hp⟩ := hfirst (by simpa using hstray)
          exact bind_eq_error.mpr (.inr ⟨p, hp stack, bind_eq_error.mpr (.inl hrest)⟩)

variable {w w' : Workspace}

theorem compile_eq_error_iff : w.compile defaultBins = .error e ↔
    ∃ before head after, w.heads = before ++ head :: after ∧
      (∀ b ∈ before, b.isStray = false → ∃ p, b.HasPipeline (max 1 defaultBins) p) ∧
      head.isStray = false ∧
      head.toPipeline (max 1 defaultBins) before.length = .error e := by
  rw [compile, compileStacks_eq_error_iff]
  simp only [Nat.zero_add]

/-- The source stacks are those that are not stray, if the workspace compiles. -/
theorem filter_source_eq (h : compileStacks defaultBins stack heads = .ok c) :
    heads.filter (fun head => (Kind.ofName head.kind).role = .source)
      = heads.filter (!·.isStray) := by
  obtain ⟨hprogram, -⟩ := compileStacks_eq_ok_iff.mp h
  refine List.filter_congr fun head hhead => ?_
  cases hstray : head.isStray with
  | true =>
    rw [Block.isStray, decide_eq_true_eq] at hstray
    rcases hstray with hrole | hrole <;> simp [hrole]
  | false =>
    have hmem : head ∈ heads.filter (!·.isStray) := List.mem_filter.mpr ⟨hhead, by simp [hstray]⟩
    obtain ⟨p, -, hp⟩ := Outcome.exists_of_forall₂_left hprogram hmem
    simp [Block.role_of_hasPipeline hp]

/-- The name in the error of a stack is that of a block in it, or plugged in below one. -/
theorem exists_called?_of_error {w : Workspace} {before after : List Block} {head : Block}
    {e : CompileError} (hheads : w.heads = before ++ head :: after)
    (he : head.toPipeline defaultBins before.length = .error e) :
    ∃ depth sockets b, w.called? ⟨before.length, depth, sockets⟩ = some (b, e.block) := by
  obtain ⟨e', -, -, depth, sockets, b, hb, -⟩ := Block.toPipeline_error_renumbered he 0
  have hat : w.heads[before.length]? = some head := by simp [hheads]
  exact ⟨depth, sockets, b, by rw [called?_of_head hat, hb]⟩

/-- A workspace that does not compile has a first stack which is neither stray nor becomes a
pipeline, and fails with the fault of that stack. The name in the error is that of a block of the
stack, or of one that is plugged in below such a block: its own name, or else the one that its place
gives it. -/
theorem fault_of_compile {w : Workspace} {defaultBins : Nat} {e : CompileError}
    (h : w.compile defaultBins = .error e) :
    ∃ before head after, w.heads = before ++ head :: after ∧
      (∀ b ∈ before, b.isStray = false → ∃ p, b.HasPipeline (max 1 defaultBins) p) ∧
      head.isStray = false ∧ (¬ ∃ p, head.HasPipeline (max 1 defaultBins) p) ∧
      head.toPipeline (max 1 defaultBins) before.length = .error e ∧
      ∃ depth sockets b, w.called? ⟨before.length, depth, sockets⟩ = some (b, e.block) := by
  obtain ⟨before, head, after, hheads, hbefore, hhead, he⟩ := compile_eq_error_iff.mp h
  exact ⟨before, head, after, hheads, hbefore, hhead, Block.not_hasPipeline_of_error he, he,
    exists_called?_of_error hheads he⟩

/-- A block for a column. -/
def redColumn : Block := .ofFields "variable_column" [("TEXT", .text "red")]

/-- A block for a column that does not say which. -/
def noColumn : Block := .ofFields "variable_column" []

/-- A comparison of a column that lacks its second operand. -/
def comparisonOf (name : Option String) (column : Block) : Block :=
  { Block.ofFields "variable_compare" [("OP", .text "GT"), ("A", .block column)] with id := name }

/-- Some colors, below a stack that is no pipeline. -/
def filtered (fields : List (String × Field Block)) : Workspace :=
  .ofChains [[redColumn], [.ofFields "data_colors" [], .ofFields "dplyr_filter" fields]]

/-- The workspace does not compile, and the name in the error is that of the block at a place. -/
def FaultAt (w : Workspace) (place : Place) (b : Block) (e : CompileError) : Prop :=
  w.compile 10 = .error e ∧ w.called? place = some (b, e.block)

/-- A block is called by its place in a stack, by the field of a block without a name, by its own
name, or by the field of a block with a name. -/
theorem filtered_faults :
    (filtered []).FaultAt ⟨1, 1, []⟩ (.ofFields "dplyr_filter" [])
      ⟨"#1.1", .missingOperand "Column"⟩ ∧
    (filtered [("Column", .block (comparisonOf none redColumn))]).FaultAt
      ⟨1, 1, [⟨"Column", none⟩]⟩ (comparisonOf none redColumn)
      ⟨"#1.1/Column", .missingOperand "B"⟩ ∧
    (filtered [("Column", .block (comparisonOf (some "cmp1") redColumn))]).FaultAt
      ⟨1, 1, [⟨"Column", none⟩]⟩ (comparisonOf (some "cmp1") redColumn)
      ⟨"cmp1", .missingOperand "B"⟩ ∧
    (filtered [("Column", .block (comparisonOf (some "cmp1") noColumn))]).FaultAt
      ⟨1, 1, [⟨"Column", none⟩, ⟨"A", none⟩]⟩ noColumn ⟨"cmp1/A", .missingField "TEXT"⟩ ∧
    ∃ head, (filtered []).heads = [redColumn, head] ∧ (¬ ∃ p, head.HasPipeline 10 p) ∧
      ∃ depth sockets b, (filtered []).called? ⟨1, depth, sockets⟩ = some (b, "#1.1") := by
  have hcompile : (filtered []).compile 10 = .error ⟨"#1.1", .missingOperand "Column"⟩ := rfl
  refine ⟨⟨hcompile, rfl⟩, ⟨rfl, rfl⟩, ⟨rfl, rfl⟩, ⟨rfl, rfl⟩, ?_⟩
  obtain ⟨before, head, after, hheads, -, hhead, hnone, -, hplace⟩ := fault_of_compile hcompile
  -- The first stack is stray, so that the fault is in the second one.
  rcases before with _ | ⟨first, _ | ⟨second, rest⟩⟩
  · cases hheads
    cases hhead
  · cases hheads
    exact ⟨_, rfl, hnone, hplace⟩
  · cases rest <;> cases hheads

/-- Where no block has a name of its own, two blocks are called the same if and only if their places
differ in positions in lists at most, and every block has a name to itself if and only if no field
lists two blocks. The name in an error is that of a block, and of others only in such lists. -/
theorem names_of_nameless {w : Workspace} (hw : w.Nameless) :
    (∀ p q b c m n, w.called? p = some (b, m) → w.called? q = some (c, n) →
      (m = n ↔ p.SameFields q)) ∧
    ((∀ p q b c n, w.called? p = some (b, n) → w.called? q = some (c, n) → p = q) ↔
      w.ListsNoTwo) ∧
    ∀ defaultBins e, w.compile defaultBins = .error e →
      ∃ p b, w.called? p = some (b, e.block) ∧
        ∀ q c, w.called? q = some (c, e.block) → p.SameFields q ∧ (w.ListsNoTwo → p = q) := by
  refine ⟨fun p q b c m n hp hq => hw.name_eq_iff hp hq, hw.names_apart_iff, ?_⟩
  intro defaultBins e he
  obtain ⟨before, head, after, hheads, -, -, hhead⟩ := compile_eq_error_iff.mp he
  obtain ⟨depth, sockets, b, hb⟩ := exists_called?_of_error hheads hhead
  refine ⟨⟨before.length, depth, sockets⟩, b, hb, fun q c hq => ⟨?_, fun hone => ?_⟩⟩
  · exact (hw.name_eq_iff hb hq).mp rfl
  · exact hw.names_apart_iff.mpr hone _ _ _ _ _ hb hq

/-- A selection of two columns, each given by a block. -/
def twoColumns (first second : Block) : Workspace :=
  .ofChains [[.ofFields "data_colors" [],
    .ofFields "dplyr_select" [("Column", .blocks [first, second])]]]

theorem redColumn_nameless : redColumn.Nameless := by
  refine .of_fields rfl fun field hfield f position inner hf hinner => ?_
  obtain rfl : field = "TEXT" := List.mem_singleton.mp hfield
  cases hf
  cases hinner

theorem noColumn_nameless : noColumn.Nameless :=
  .of_fields rfl fun _ _ _ _ _ hf _ => nomatch hf

theorem twoColumns_nameless {first second : Block} (hfirst : first.Nameless)
    (hsecond : second.Nameless) : (twoColumns first second).Nameless := by
  intro head hhead b hb
  obtain rfl := List.mem_singleton.mp hhead
  rcases List.mem_cons.mp hb with rfl | hb
  · exact .of_fields rfl nofun
  obtain rfl := List.mem_singleton.mp hb
  refine .of_fields rfl fun field hfield f position inner hf hinner => ?_
  obtain rfl : field = "Column" := List.mem_singleton.mp hfield
  obtain rfl : f = .blocks [first, second] := (Option.some.inj hf).symm
  cases position with
  | none => cases hinner
  | some i =>
    have hmem : inner ∈ [first, second] := List.mem_of_getElem? hinner
    rcases List.mem_cons.mp hmem with rfl | hmem
    · exact hfirst
    · obtain rfl := List.mem_singleton.mp hmem
      exact hsecond

theorem twoColumns_name : (twoColumns redColumn noColumn).Nameless ∧
    (twoColumns redColumn noColumn).compile 10 = .error ⟨"#0.1/Column", .missingField "TEXT"⟩ ∧
    ∀ q c, (twoColumns redColumn noColumn).called? q = some (c, "#0.1/Column") →
      (⟨0, 1, [⟨"Column", some 1⟩]⟩ : Place).SameFields q := by
  have hw := twoColumns_nameless redColumn_nameless noColumn_nameless
  refine ⟨hw, rfl, fun q c hq => ?_⟩
  exact ((names_of_nameless hw).1 _ q noColumn c _ _ rfl hq).mp rfl

/-- The name in the error is that of both columns, and the same if the other one has the fault. -/
theorem twoColumns_share_name : (twoColumns redColumn noColumn).Nameless ∧
    (twoColumns redColumn noColumn).called? ⟨0, 1, [⟨"Column", some 0⟩]⟩
      = some (redColumn, "#0.1/Column") ∧
    (twoColumns redColumn noColumn).called? ⟨0, 1, [⟨"Column", some 1⟩]⟩
      = some (noColumn, "#0.1/Column") ∧
    (twoColumns redColumn noColumn).compile 10 = .error ⟨"#0.1/Column", .missingField "TEXT"⟩ ∧
    (twoColumns noColumn redColumn).compile 10 = .error ⟨"#0.1/Column", .missingField "TEXT"⟩ :=
  ⟨twoColumns_nameless redColumn_nameless noColumn_nameless, rfl, rfl, rfl, rfl⟩

end Workspace

end TablePipeline
