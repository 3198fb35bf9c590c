import TablePipeline.Proofs.Compile
import TablePipeline.Proofs.Places
/-!
# What compiling does not look at

The names of blocks, the fields that their types do not have, and what is below blocks that are
plugged in do not matter. Blocks that differ in these at most are alike (`Block.Alike False`). What
is read of alike blocks matches: it is the same, or the same fault, and then of blocks that the same
sockets lead to (`Block.SameFault`). Each reader has a lemma that says so, up to `toStage_matches`
and `Workspace.compile_alike`. Only what a block is called in an error depends on names.

If the relation is lenient, the second block may also have anything where the first one has a
content that no reader can use. Then it is only what the first one comes to that stays the same.
-/

namespace TablePipeline

open Outcome (Matches)

/-- The contents are the same, but for their blocks, which are related. If it is lenient, the second
one may be any where the first one is held as it is. -/
inductive Field.AlikeBy {β : Type} (lenient : Prop) (R : β → β → Prop) : Field β → Field β → Prop
  | number (n : Json.Number) : AlikeBy lenient R (.number n) (.number n)
  | text (s : String) : AlikeBy lenient R (.text s) (.text s)
  | block {b c : β} (alike : R b c) : AlikeBy lenient R (.block b) (.block c)
  | blocks {bs cs : List β} (alike : List.Forall₂ R bs cs) :
      AlikeBy lenient R (.blocks bs) (.blocks cs)
  | other (j : Json) : AlikeBy lenient R (.other j) (.other j)
  | lost (h : lenient) (j : Json) (f : Field β) : AlikeBy lenient R (.other j) f

/-- The blocks have the same type, and what stands in a field of that type is the same, but for
blocks plugged in there, which are alike. If it is lenient, the second block may have anything where
the first one holds something as it is. -/
inductive Block.Alike (lenient : Prop) : Block → Block → Prop
  | intro {b c : Block} (kind_eq : b.kind = c.kind)
      (fields : ∀ field ∈ (Kind.ofName b.kind).fields,
        Option.Rel (Field.AlikeBy lenient (Alike lenient)) (b.fields.lookup field)
          (c.fields.lookup field)) :
      Alike lenient b c

namespace Field.AlikeBy

variable {β : Type} {lenient : Prop} {R S : β → β → Prop} {f g : Field β}

theorem describe_eq (h : f.AlikeBy lenient R g) : lenient ∨ f.describe = g.describe := by
  cases h with
  | lost h => exact .inl h
  | _ => exact .inr rfl

theorem refl (hR : ∀ b, R b b) (f : Field β) : f.AlikeBy lenient R f := by
  cases f with
  | number n => exact .number n
  | text s => exact .text s
  | block b => exact .block (hR b)
  | blocks bs => exact .blocks (List.forall₂_same.mpr fun b _ => hR b)
  | other j => exact .other j

/-- Another relation does as well, if it holds of the blocks. -/
theorem of_blocks (h : f.AlikeBy lenient R g)
    (hRS : ∀ position b c, f.block? position = some b → R b c → S b c) : f.AlikeBy lenient S g := by
  cases h with
  | number n => exact .number n
  | text s => exact .text s
  | block hbc => exact .block (hRS none _ _ rfl hbc)
  | @blocks bs cs hbcs =>
    have hmem : ∀ b ∈ bs, ∀ c, R b c → S b c := fun b hb c hbc => by
      obtain ⟨i, hi⟩ := List.mem_iff_getElem?.mp hb
      exact hRS (some i) b c hi hbc
    exact .blocks (((List.forall₂_and_left _ _).mpr ⟨hmem, hbcs⟩).imp fun b c h => h.1 c h.2)
  | other j => exact .other j
  | lost h j g => exact .lost h j g

end Field.AlikeBy

namespace Block

variable {b c inner inner' : Block} {name name' field : String} {α : Type} {lenient : Prop}

theorem Alike.kind_eq (h : b.Alike lenient c) : b.kind = c.kind := by
  cases h
  assumption

theorem Alike.lookup (h : b.Alike lenient c) (hfield : field ∈ (Kind.ofName b.kind).fields) :
    Option.Rel (Field.AlikeBy lenient (Alike lenient)) (b.fields.lookup field)
      (c.fields.lookup field) := by
  cases h with
  | intro _ hfields => exact hfields field hfield

/-- Blocks are alike if they are related in a way that relates what is plugged into them. -/
theorem Alike.of_simulation {S : Block → Block → Prop}
    (hS : ∀ b c, S b c → b.kind = c.kind ∧ ∀ field ∈ (Kind.ofName b.kind).fields,
      Option.Rel (Field.AlikeBy lenient S) (b.fields.lookup field) (c.fields.lookup field))
    (h : S b c) : b.Alike lenient c := by
  induction b using induction_plugged generalizing c with
  | h b ih =>
    obtain ⟨hkind, hfields⟩ := hS b c h
    refine .intro hkind fun field hfield => ?_
    have hlookup := hfields field hfield
    generalize hf : b.fields.lookup field = found, c.fields.lookup field = found' at hlookup ⊢
    cases hlookup with
    | none => exact .none
    | some hfg =>
      refine .some (hfg.of_blocks fun position inner inner' hinner hrelated => ?_)
      exact ih ⟨field, position⟩ inner (plugged?_eq_some.mpr ⟨hfield, _, hf, hinner⟩) hrelated

theorem Alike.refl (b : Block) : b.Alike lenient b := by
  refine of_simulation (S := Eq) (fun b c hbc => ?_) rfl
  subst hbc
  refine ⟨rfl, fun field _ => ?_⟩
  cases b.fields.lookup field with
  | none => exact .none
  | some f => exact .some (.refl (fun _ => rfl) f)

/-- The faults are the same, and of blocks that the same sockets lead to. -/
structure SameFault (b : Block) (name : String) (c : Block) (name' : String)
    (e e' : CompileError) : Prop where
  fault_eq : e.fault = e'.fault
  place : ∃ sockets inner inner', b.called? name sockets = some (inner, e.block) ∧
    c.called? name' sockets = some (inner', e'.block)

theorem SameFault.below {s : Socket} {e e' : CompileError} (hs : b.plugged? s = some inner)
    (hs' : c.plugged? s = some inner')
    (h : SameFault inner (inner.nameIn name s.field) inner' (inner'.nameIn name' s.field) e e') :
    SameFault b name c name' e e' := by
  obtain ⟨sockets, at_, at', hat, hat'⟩ := h.place
  exact ⟨h.fault_eq, s :: sockets, at_, at', called?_cons.mpr ⟨inner, hs, hat⟩,
    called?_cons.mpr ⟨inner', hs', hat'⟩⟩

theorem faulty_matches {R : α → α → Prop} (fault : Fault) :
    Matches lenient R (SameFault b name c name') (faulty name fault) (faulty name' fault) :=
  .error ⟨rfl, [], b, c, rfl, rfl⟩

/-- Two contents stand in a field of two alike blocks. -/
structure InField (lenient : Prop) (b c : Block) (field : String) (f g : Field Block) : Prop where
  kind_eq : b.kind = c.kind
  field_mem : field ∈ (Kind.ofName b.kind).fields
  left : b.fields.lookup field = some f
  right : c.fields.lookup field = some g
  alike : f.AlikeBy lenient (Alike lenient) g

namespace InField

theorem plugged? {f g : Field Block} (h : InField lenient b c field f g) (position : Option Nat)
    (hf : f.block? position = some inner) (hg : g.block? position = some inner') :
    b.plugged? ⟨field, position⟩ = some inner ∧ c.plugged? ⟨field, position⟩ = some inner' :=
  ⟨plugged?_eq_some.mpr ⟨h.field_mem, f, h.left, hf⟩,
    plugged?_eq_some.mpr ⟨h.kind_eq ▸ h.field_mem, g, h.right, hg⟩⟩

/-- What is read of plugged blocks matches for their owners if it does for the blocks. -/
theorem matches_block {f g : Field Block} (h : InField lenient b c field f g)
    (position : Option Nat) (hf : f.block? position = some inner)
    (hg : g.block? position = some inner') {R : α → α → Prop} {x y : Compiled α}
    (hxy : Matches lenient R
      (SameFault inner (inner.nameIn name field) inner' (inner'.nameIn name' field)) x y) :
    Matches lenient R (SameFault b name c name') x y := by
  obtain ⟨hb, hc⟩ := h.plugged? position hf hg
  exact hxy.mono fun e e' he => he.below hb hc

theorem matches_blocks {bs cs : List Block}
    (h : InField lenient b c field (.blocks bs) (.blocks cs)) (read : Block → String → Compiled α)
    (hread : ∀ inner inner' name name', inner.Alike lenient inner' →
      Matches lenient Eq (SameFault inner name inner' name') (read inner name)
        (read inner' name')) :
    Matches lenient Eq (SameFault b name c name')
      (bs.mapM fun inner => read inner (inner.nameIn name field))
      (cs.mapM fun inner => read inner (inner.nameIn name' field)) := by
  have hbcs : List.Forall₂ (Alike lenient) bs cs := by
    cases h.alike
    assumption
  refine .mapM hbcs.length_eq fun i inner inner' hi hi' => ?_
  refine h.matches_block (some i) hi hi' (hread _ _ _ _ ?_)
  obtain ⟨hlt, rfl⟩ := List.getElem?_eq_some_iff.mp hi
  obtain ⟨hlt', rfl⟩ := List.getElem?_eq_some_iff.mp hi'
  exact hbcs.get hlt hlt'

theorem wrongField_matches {f g : Field Block} (h : InField lenient b c field f g)
    {R : α → α → Prop} (name name' expected : String) :
    Matches lenient R (SameFault b name c name') (wrongField name field expected f)
      (wrongField name' field expected g) := by
  unfold wrongField
  rcases h.alike.describe_eq with hlenient | hdescribe
  · exact .lost hlenient _ _
  · rw [hdescribe]
    exact faulty_matches _

end InField

/-! ### What alike blocks stand for -/

theorem unknownKind_matches {R : α → α → Prop} (kind : String) :
    Matches lenient R (SameFault b name c name') (unknownKind name kind) (unknownKind name' kind) :=
  faulty_matches _

/-- A field of two alike blocks is missing in both, or both hold something there. -/
theorem Alike.missing_or_held (h : b.Alike lenient c)
    (hfield : field ∈ (Kind.ofName b.kind).fields) :
    b.fields.lookup field = none ∧ c.fields.lookup field = none ∨
      ∃ f g, InField lenient b c field f g := by
  have hlookup := h.lookup hfield
  generalize hf : b.fields.lookup field = found, hg : c.fields.lookup field = found' at hlookup
  cases hlookup with
  | none => exact .inl ⟨rfl, rfl⟩
  | some halike => exact .inr ⟨_, _, h.kind_eq, hfield, hf, hg, halike⟩

theorem required_matches (h : b.Alike lenient c) (hfield : field ∈ (Kind.ofName b.kind).fields) :
    Matches lenient (InField lenient b c field) (SameFault b name c name') (b.required name field)
      (c.required name' field) := by
  unfold required
  obtain ⟨hb, hc⟩ | ⟨f, g, hheld⟩ := h.missing_or_held hfield
  · rw [hb, hc]
    exact .error ⟨rfl, [], b, c, rfl, rfl⟩
  · rw [hheld.left, hheld.right]
    exact .ok hheld

theorem textField_matches (h : b.Alike lenient c) (hfield : field ∈ (Kind.ofName b.kind).fields) :
    Matches lenient Eq (SameFault b name c name') (b.textField name field)
      (c.textField name' field) := by
  refine (required_matches h hfield).bind fun f g hheld => ?_
  have hwrong := hheld.wrongField_matches (R := @Eq String) name name' "text"
  cases hheld.alike with
  | text s =>
    show Matches _ _ _ (if s = "" then _ else _) (if s = "" then _ else _)
    split
    · exact faulty_matches _
    · exact .ok rfl
  | number n | block hbc | blocks hbcs | other j => exact hwrong
  | lost hlenient j g => exact .lost hlenient _ _

theorem columnName_matches (h : b.Alike lenient c) :
    Matches lenient Eq (SameFault b name c name') (b.columnName name) (c.columnName name') := by
  unfold columnName
  rw [← h.kind_eq]
  split
  · exact unknownKind_matches _
  split
  · next hkind => exact textField_matches h (by rw [hkind]; decide)
  · exact faulty_matches _

theorem columnOf_matches {f g : Field Block} (h : InField lenient b c field f g) :
    Matches lenient Eq (SameFault b name c name') (columnOf name field f)
      (columnOf name' field g) := by
  have hwrong := h.wrongField_matches (R := @Eq String) name name' "a column"
  cases h.alike with
  | text s =>
    show Matches _ _ _ (if s = "" then _ else _) (if s = "" then _ else _)
    split
    · exact hwrong
    · exact .ok rfl
  | block hinner =>
    exact h.matches_block none rfl rfl (columnName_matches hinner)
  | number n | blocks hbcs | other j => exact hwrong
  | lost hlenient j g => exact .lost hlenient _ _

theorem columnField_matches (h : b.Alike lenient c) (hfield : field ∈ (Kind.ofName b.kind).fields) :
    Matches lenient Eq (SameFault b name c name') (b.columnField name field)
      (c.columnField name' field) :=
  (required_matches h hfield).bind fun _ _ hheld => columnOf_matches hheld

theorem columnsField_matches (h : b.Alike lenient c)
    (hfield : field ∈ (Kind.ofName b.kind).fields) :
    Matches lenient Eq (SameFault b name c name') (b.columnsField name field)
      (c.columnsField name' field) := by
  have hset (names : List String) : Matches lenient Eq (SameFault b name c name')
      (if names.isEmpty then faulty name .noColumns else .ok (NameSet.ofNames names))
      (if names.isEmpty then faulty name' .noColumns else .ok (NameSet.ofNames names)) := by
    split
    · exact faulty_matches _
    · exact .ok rfl
  refine (required_matches h hfield).bind fun f g hheld => ?_
  have hone : Matches lenient Eq (SameFault b name c name') (columnOf name field f)
    (columnOf name' field g) := columnOf_matches hheld
  cases hheld.alike with
  | blocks hbcs =>
    exact (hheld.matches_blocks columnName fun _ _ _ _ hinner =>
      columnName_matches hinner).andThen hset
  | number n | text s | block hbc | other j => exact hone.andThen fun column => hset [column]
  | lost hlenient j g => exact .lost hlenient _ _

theorem numberOf_matches {f g : Field Block} (h : InField lenient b c field f g) :
    Matches lenient Eq (SameFault b name c name') (numberOf name field f)
      (numberOf name' field g) := by
  have hwrong := h.wrongField_matches (R := @Eq Value) name name' "a number"
  cases h.alike with
  | number n => exact .ok rfl
  | text s =>
    unfold numberOf
    dsimp only
    cases numberOfText? s with
    | some v => exact .ok rfl
    | none => exact hwrong
  | block hbc | blocks hbcs | other j => exact hwrong
  | lost hlenient j g => exact .lost hlenient _ _

theorem operatorField_matches (ofCode? : String → Option α) (h : b.Alike lenient c)
    (hfield : "OP" ∈ (Kind.ofName b.kind).fields) :
    Matches lenient Eq (SameFault b name c name') (b.operatorField name ofCode?)
      (c.operatorField name' ofCode?) := by
  refine (textField_matches h hfield).andThen fun code => ?_
  cases ofCode? code with
  | some op => exact .ok rfl
  | none => exact faulty_matches _

theorem textLiteral_matches (h : b.Alike lenient c)
    (hfield : "TEXT" ∈ (Kind.ofName b.kind).fields) :
    Matches lenient Eq (SameFault b name c name') (b.textLiteral name) (c.textLiteral name') := by
  refine (required_matches h hfield).bind fun f g hheld => ?_
  have hwrong := hheld.wrongField_matches (R := @Eq Expr) name name' "text"
  cases hheld.alike with
  | text s => exact .ok rfl
  | number n | block hbc | blocks hbcs | other j => exact hwrong
  | lost hlenient j g => exact .lost hlenient _ _

theorem booleanLiteral_matches (h : b.Alike lenient c)
    (hfield : "BOOL" ∈ (Kind.ofName b.kind).fields) :
    Matches lenient Eq (SameFault b name c name') (b.booleanLiteral name)
      (c.booleanLiteral name') := by
  refine (textField_matches h hfield).andThen fun s => ?_
  split
  · exact .ok rfl
  split
  · exact .ok rfl
  · exact faulty_matches _

/-- The expressions of alike blocks are the same, or have the same fault. -/
def ExprMatches (lenient : Prop) (b : Block) : Prop := ∀ c name name', b.Alike lenient c →
  Matches lenient Eq (SameFault b name c name') (b.rowExpr name) (c.rowExpr name')

theorem operand_matches_of (h : b.Alike lenient c) (hfield : field ∈ (Kind.ofName b.kind).fields)
    (hplugged : ∀ s inner, b.plugged? s = some inner → inner.ExprMatches lenient) :
    Matches lenient Eq (SameFault b name c name') (operand name field b.fields)
      (operand name' field c.fields) := by
  rw [operand_eq, operand_eq]
  obtain ⟨hb, hc⟩ | ⟨f, g, hheld⟩ := h.missing_or_held hfield
  · rw [hb, hc]
    exact faulty_matches _
  rw [hheld.left, hheld.right]
  have hwrong := hheld.wrongField_matches (R := @Eq Expr) name name'
    "an expression block"
  cases hheld.alike with
  | @block inner inner' hinner =>
    have hsocket := (hheld.plugged? none rfl rfl).1
    dsimp only
    rw [operandOf, operandOf]
    exact hheld.matches_block none rfl rfl
      (hplugged _ inner hsocket inner' _ _ hinner)
  | number n | text s | blocks hbcs | other j => exact hwrong
  | lost hlenient j g => exact .lost hlenient _ _

theorem rowExpr_matches (b : Block) : b.ExprMatches lenient := by
  -- The names change from block to block on the way down, and so the induction is over all names.
  induction b using induction_plugged with
  | h b ih =>
    intro c name name' h
    have hoperand {field : String} (hfield : field ∈ (Kind.ofName b.kind).fields) :
        Matches lenient Eq (SameFault b name c name') (operand name field b.fields)
          (operand name' field c.fields) := operand_matches_of h hfield ih
    have hkind := h.kind_eq
    obtain ⟨bid, kind, bfields, bnext⟩ := b
    obtain ⟨cid, kind', cfields, cnext⟩ := c
    obtain rfl : kind = kind' := hkind
    rw [rowExpr, rowExpr]
    cases hrole : Kind.ofName kind with
    | number =>
      refine (required_matches h (by rw [hrole]; decide)).bind fun f g hheld => ?_
      exact (numberOf_matches hheld).andThen fun v => .ok rfl
    | text => exact textLiteral_matches h (by rw [hrole]; decide)
    | missing => exact .ok rfl
    | boolean => exact booleanLiteral_matches h (by rw [hrole]; decide)
    | column => exact (textField_matches h (by rw [hrole]; decide)).andThen fun s => .ok rfl
    | compare =>
      refine (operatorField_matches _ h (by rw [hrole]; decide)).andThen fun op => ?_
      refine (hoperand (by rw [hrole]; decide)).andThen fun left => ?_
      exact (hoperand (by rw [hrole]; decide)).andThen fun right => .ok rfl
    | arithmetic =>
      refine (operatorField_matches _ h (by rw [hrole]; decide)).andThen fun op => ?_
      refine (hoperand (by rw [hrole]; decide)).andThen fun left => ?_
      exact (hoperand (by rw [hrole]; decide)).andThen fun right => .ok rfl
    | unknown => exact unknownKind_matches _
    | dataset name | namedDataset | join | select | filter | mutate | group | summarize | notify
    | histogram | bar | scatter | aggregate f => exact faulty_matches _

theorem operand_matches (h : b.Alike lenient c) (hfield : field ∈ (Kind.ofName b.kind).fields) :
    Matches lenient Eq (SameFault b name c name') (operand name field b.fields)
      (operand name' field c.fields) :=
  operand_matches_of h hfield fun _ inner _ => rowExpr_matches inner

theorem aggregateExpr_matches (h : b.Alike lenient c) :
    Matches lenient Eq (SameFault b name c name') (b.aggregateExpr name)
      (c.aggregateExpr name') := by
  unfold aggregateExpr
  rw [← h.kind_eq]
  split
  · next f hkind =>
    exact (columnField_matches h (by rw [hkind]; exact List.mem_cons_self)).andThen fun _ => .ok rfl
  · exact faulty_matches _

theorem aggregatesField_matches (h : b.Alike lenient c)
    (hfield : field ∈ (Kind.ofName b.kind).fields) :
    Matches lenient Eq (SameFault b name c name') (b.aggregatesField name field)
      (c.aggregatesField name' field) := by
  refine (required_matches h hfield).bind fun f g hheld => ?_
  have hwrong := hheld.wrongField_matches (R := @Eq (List Expr)) name name'
    "aggregate blocks"
  cases hheld.alike with
  | block hinner =>
    exact (hheld.matches_block none rfl rfl (aggregateExpr_matches hinner)).andThen
      fun e => .ok rfl
  | blocks hbcs =>
    cases hbcs with
    | nil => exact hwrong
    | cons hinner hrest =>
      exact hheld.matches_blocks (fun inner name => inner.aggregateExpr name)
        fun _ _ _ _ hinner => aggregateExpr_matches hinner
  | number n | text s | other j => exact hwrong
  | lost hlenient j g => exact .lost hlenient _ _

theorem binValue_matches {f g : Field Block} (h : InField lenient b c "bins" f g) :
    Matches lenient Eq (SameFault b name c name') (binValue name f) (binValue name' g) := by
  have hnumber : Matches lenient Eq (SameFault b name c name') (numberOf name "bins" f)
    (numberOf name' "bins" g) := numberOf_matches h
  cases h.alike with
  | @block inner inner' hinner =>
    refine h.matches_block none rfl rfl ?_
    refine (rowExpr_matches inner inner' _ _ hinner).andThen fun e => ?_
    cases e with
    | literal v => exact .ok rfl
    | _ => exact faulty_matches _
  | number n | text s | blocks hbcs | other j => exact hnumber
  | lost hlenient j g => exact .lost hlenient _ _

theorem binCount_matches {f g : Field Block} (h : InField lenient b c "bins" f g) :
    Matches lenient Eq (SameFault b name c name') (binCount name f) (binCount name' g) := by
  refine (binValue_matches h).andThen fun v => ?_
  cases count? v with
  | some n => exact .ok rfl
  | none => exact faulty_matches _

theorem toStage_matches {defaultBins : Nat} (h : b.Alike lenient c) :
    Matches lenient Eq (SameFault b name c name') (b.toStage defaultBins name)
      (c.toStage defaultBins name') := by
  have htext {field : String} (hfield : field ∈ (Kind.ofName b.kind).fields) :
      Matches lenient Eq (SameFault b name c name') (b.textField name field)
        (c.textField name' field) :=
    textField_matches h hfield
  have hcolumn {field : String} (hfield : field ∈ (Kind.ofName b.kind).fields) :
      Matches lenient Eq (SameFault b name c name') (b.columnField name field)
        (c.columnField name' field) := columnField_matches h hfield
  have hoperand {field : String} (hfield : field ∈ (Kind.ofName b.kind).fields) :
      Matches lenient Eq (SameFault b name c name') (operand name field b.fields)
        (operand name' field c.fields) := operand_matches h hfield
  unfold toStage
  rw [← h.kind_eq]
  cases hkind : Kind.ofName b.kind with
  | namedDataset | notify => exact (htext (by rw [hkind]; decide)).andThen fun _ => .ok rfl
  | dataset name =>
    show Matches _ _ _ (if name = "" then _ else _) (if name = "" then _ else _)
    split
    · exact faulty_matches _
    · exact .ok rfl
  | join =>
    refine (htext (by rw [hkind]; decide)).andThen fun leftName => ?_
    refine (hcolumn (by rw [hkind]; decide)).andThen fun left => ?_
    refine (htext (by rw [hkind]; decide)).andThen fun rightName => ?_
    exact (hcolumn (by rw [hkind]; decide)).andThen fun right => .ok rfl
  | select => exact (columnsField_matches h (by rw [hkind]; decide)).andThen fun _ => .ok rfl
  | filter => exact (hoperand (by rw [hkind]; decide)).andThen fun predicate => .ok rfl
  | mutate =>
    refine (htext (by rw [hkind]; decide)).andThen fun column => ?_
    exact (hoperand (by rw [hkind]; decide)).andThen fun value => .ok rfl
  | group => exact (hcolumn (by rw [hkind]; decide)).andThen fun column => .ok rfl
  | summarize =>
    exact (aggregatesField_matches h (by rw [hkind]; decide)).andThen fun aggregates => .ok rfl
  | histogram =>
    refine (hcolumn (by rw [hkind]; decide)).andThen fun column => ?_
    have hread : "bins" ∈ (Kind.ofName b.kind).fields := by rw [hkind]; decide
    obtain ⟨hb, hc⟩ | ⟨f, g, hheld⟩ := h.missing_or_held hread
    · rw [hb, hc]
      exact .ok rfl
    · rw [hheld.left, hheld.right]
      exact (binCount_matches hheld).andThen fun bins => .ok rfl
  | bar =>
    refine (hcolumn (by rw [hkind]; decide)).andThen fun x => ?_
    exact (hcolumn (by rw [hkind]; decide)).andThen fun y => .ok rfl
  | scatter =>
    refine (hcolumn (by rw [hkind]; decide)).andThen fun x => ?_
    refine (hcolumn (by rw [hkind]; decide)).andThen fun y => ?_
    have hread : "color" ∈ (Kind.ofName b.kind).fields := by rw [hkind]; decide
    obtain ⟨hb, hc⟩ | ⟨f, g, hheld⟩ := h.missing_or_held hread
    · rw [hb, hc]
      exact .ok rfl
    · rw [hheld.left, hheld.right]
      exact (columnOf_matches hheld).andThen fun color => .ok rfl
  | unknown => exact unknownKind_matches _
  | number | text | missing | boolean | column | compare | arithmetic | aggregate f =>
    exact faulty_matches _

/-! ### Stacks -/

/-- The faults are the same, and of blocks at the same place of two stacks. -/
structure SameFaultIn (head : Block) (stack : Nat) (head' : Block) (stack' : Nat)
    (e e' : CompileError) : Prop where
  fault_eq : e.fault = e'.fault
  place : ∃ depth sockets b b', head.calledIn? stack depth sockets = some (b, e.block) ∧
    head'.calledIn? stack' depth sockets = some (b', e'.block)

/-- The stages of alike blocks are the same, or the first fault is at the same place. -/
theorem stages_matches {defaultBins stack stack' depth : Nat} {bs cs : List Block}
    (h : List.Forall₂ (Alike lenient) bs cs) :
    Matches lenient Eq
      (fun e e' => ∃ i b c, bs[i]? = some b ∧ cs[i]? = some c ∧
        SameFault b (b.nameAt stack (depth + i)) c (c.nameAt stack' (depth + i)) e e')
      (stages defaultBins stack depth bs) (stages defaultBins stack' depth cs) := by
  induction h generalizing depth with
  | nil => exact .ok rfl
  | @cons b c bs cs hbc hrest ih =>
    have hhere {e e' : CompileError}
        (he : SameFault b (b.nameAt stack depth) c (c.nameAt stack' depth) e e') :
        ∃ i b' c', (b :: bs)[i]? = some b' ∧ (c :: cs)[i]? = some c' ∧
          SameFault b' (b'.nameAt stack (depth + i)) c' (c'.nameAt stack' (depth + i)) e e' :=
      ⟨0, b, c, rfl, rfl, he⟩
    have hempty : bs.isEmpty = cs.isEmpty := by
      cases hrest <;> rfl
    rw [stages, stages]
    refine ((toStage_matches hbc).mono fun _ _ => hhere).andThen fun stage => ?_
    rw [hbc.kind_eq, hempty]
    split
    · exact (faulty_matches _).mono fun _ _ => hhere
    split
    · exact (faulty_matches _).mono fun _ _ => hhere
    refine (ih.mono fun e e' he => ?_).andThen fun rest => .ok rfl
    obtain ⟨i, b', c', hb, hc, he⟩ := he
    rw [Nat.add_right_comm] at he
    exact ⟨i + 1, b', c', hb, hc, he⟩

theorem kind_eq_of_chains {head head' : Block}
    (h : List.Forall₂ (Alike lenient) head.chain head'.chain) : head.kind = head'.kind := by
  rw [chain_eq_cons, chain_eq_cons head'] at h
  cases h with
  | cons hhead _ => exact hhead.kind_eq

/-- Stacks of alike blocks become the same pipeline, wherever they stand. -/
theorem toPipeline_matches {defaultBins stack stack' : Nat} {head head' : Block}
    (h : List.Forall₂ (Alike lenient) head.chain head'.chain) :
    Matches lenient Eq (SameFaultIn head stack head' stack') (head.toPipeline defaultBins stack)
      (head'.toPipeline defaultBins stack') := by
  have hin {e e' : CompileError} (i : Nat) (b c : Block) (hb : head.chain[i]? = some b)
      (hc : head'.chain[i]? = some c)
      (he : SameFault b (b.nameAt stack i) c (c.nameAt stack' i) e e') :
      SameFaultIn head stack head' stack' e e' := by
    obtain ⟨hfault, sockets, inner, inner', hinner, hinner'⟩ := he
    exact ⟨hfault, i, sockets, inner, inner', calledIn?_eq_some.mpr ⟨b, hb, hinner⟩,
      calledIn?_eq_some.mpr ⟨c, hc, hinner'⟩⟩
  have hfirst (head : Block) : head.chain[0]? = some head := by
    rw [chain_eq_cons]
    rfl
  unfold toPipeline
  rw [kind_eq_of_chains h]
  split
  · refine (stages_matches h).mono fun e e' he => ?_
    obtain ⟨i, b, c, hb, hc, he⟩ := he
    rw [Nat.zero_add] at he
    exact hin i b c hb hc he
  · exact (unknownKind_matches _).mono fun e e' he =>
      hin 0 head head' (hfirst head) (hfirst head') he

end Block

namespace Workspace

/-- The workspaces differ at most in the names of blocks, in what stands in fields that the type of
their block does not have, and in what is below blocks that are plugged in. -/
def Alike (w w' : Workspace) : Prop :=
  List.Forall₂ (fun head head' => List.Forall₂ (Block.Alike False) head.chain head'.chain)
    w.heads w'.heads

theorem compileStacks_matches {lenient : Prop} (defaultBins stack : Nat)
    {heads heads' : List Block}
    (h : List.Forall₂ (fun head head' => List.Forall₂ (Block.Alike lenient) head.chain head'.chain)
      heads heads') :
    Matches lenient Eq
      (fun e e' => ∃ i head head', heads[i]? = some head ∧ heads'[i]? = some head' ∧
        Block.SameFaultIn head (stack + i) head' (stack + i) e e')
      (compileStacks defaultBins stack heads) (compileStacks defaultBins stack heads') := by
  induction h generalizing stack with
  | nil => exact .ok rfl
  | @cons head head' heads heads' hchains hrest ih =>
    have hhere {e e' : CompileError} (he : Block.SameFaultIn head stack head' stack e e') :
        ∃ i b b', (head :: heads)[i]? = some b ∧ (head' :: heads')[i]? = some b' ∧
          Block.SameFaultIn b (stack + i) b' (stack + i) e e' :=
      ⟨0, head, head', rfl, rfl, he⟩
    have hlater {e e' : CompileError} (he : ∃ i b b', heads[i]? = some b ∧ heads'[i]? = some b' ∧
          Block.SameFaultIn b (stack + 1 + i) b' (stack + 1 + i) e e') :
        ∃ i b b', (head :: heads)[i]? = some b ∧ (head' :: heads')[i]? = some b' ∧
          Block.SameFaultIn b (stack + i) b' (stack + i) e e' := by
      obtain ⟨i, b, b', hb, hb', he⟩ := he
      rw [Nat.add_right_comm] at he
      exact ⟨i + 1, b, b', hb, hb', he⟩
    have hstray : head.isStray = head'.isStray := by
      rw [Block.isStray, Block.isStray, Block.kind_eq_of_chains hchains]
    rw [compileStacks_cons, compileStacks_cons, hstray]
    split
    · exact ((ih (stack + 1)).mono fun _ _ => hlater).andThen fun c => .ok rfl
    · refine ((Block.toPipeline_matches hchains).mono fun _ _ => hhere).andThen fun pipeline => ?_
      exact ((ih (stack + 1)).mono fun _ _ => hlater).andThen fun c => .ok rfl

/-- Workspaces that differ at most in what no block is read for compile alike: to the same program
and as many stray stacks, or to the same fault, of the blocks at the same place. -/
theorem compile_alike {w w' : Workspace} (h : w.Alike w') (defaultBins : Nat) :
    (∃ c, w.compile defaultBins = .ok c ∧ w'.compile defaultBins = .ok c) ∨
    ∃ e e', w.compile defaultBins = .error e ∧ w'.compile defaultBins = .error e' ∧
      e.fault = e'.fault ∧
      ∃ p b b', w.called? p = some (b, e.block) ∧ w'.called? p = some (b', e'.block) := by
  have hmatches := compileStacks_matches (max 1 defaultBins) 0 h
  unfold compile
  generalize compileStacks (max 1 defaultBins) 0 w.heads = x,
    compileStacks (max 1 defaultBins) 0 w'.heads = y at hmatches ⊢
  cases hmatches with
  | ok heq =>
    subst heq
    exact .inl ⟨_, rfl, rfl⟩
  | error he =>
    obtain ⟨i, head, head', hhead, hhead', hfault, depth, sockets, b, b', hb, hb'⟩ := he
    rw [Nat.zero_add] at hb hb'
    refine .inr ⟨_, _, rfl, rfl, hfault, ⟨i, depth, sockets⟩, b, b', ?_, ?_⟩
    · rw [called?_of_head hhead, hb]
    · rw [called?_of_head hhead', hb']
  | lost h => cases h

/-- People by their age. -/
def byAge : Workspace :=
  .ofChains [[.ofFields "data_people" [], .ofFields "dplyr_groupby"
    [("Column", .block (.ofFields "variable_column" [("TEXT", .text "age")]))]]]

/-- The same with one name for all blocks, notes that nothing reads, and a block below a column. -/
def byAgeNoted : Workspace :=
  .ofChains [[
    { Block.ofFields "data_people" [("note", .other .null)] with id := some "a" },
    { Block.ofFields "dplyr_groupby" [("Column", .block
        { Block.ofFields "variable_column" [("NUM", .blocks []), ("TEXT", .text "age")] with
          id := some "a", next := some (.ofFields "" []) })] with id := some "a" }]]

theorem byAgeNoted_alike : byAge.Alike byAgeNoted ∧
    byAge.compile 10 = .ok ⟨[[.load "people", .group "age"]], 0⟩ ∧
    byAgeNoted.compile 10 = .ok ⟨[[.load "people", .group "age"]], 0⟩ := by
  have halike : byAge.Alike byAgeNoted := by
    refine .cons (.cons (.intro rfl nofun) (.cons (.intro rfl fun field hfield => ?_) .nil)) .nil
    obtain rfl : field = "Column" := List.mem_singleton.mp hfield
    refine .some (.block (.intro rfl fun field hfield => ?_))
    obtain rfl : field = "TEXT" := List.mem_singleton.mp hfield
    exact .some (.text "age")
  have hcompile : byAge.compile 10 = .ok ⟨[[.load "people", .group "age"]], 0⟩ := rfl
  refine ⟨halike, hcompile, ?_⟩
  obtain ⟨c, hc, hc'⟩ | ⟨e, e', he, -⟩ := compile_alike halike 10
  · rw [hcompile] at hc
    rw [hc', hc]
  · rw [hcompile] at he
    cases he

end Workspace

end TablePipeline
