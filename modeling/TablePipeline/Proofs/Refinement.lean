import TablePipeline.Proofs.Erasure
/-!
# Blocks that say more

No block can use what a field holds as it is. A block that has something else there, and is the same
otherwise, refines it (`Block.RefinedBy`). The two are alike if one is lenient
(`Block.RefinedBy.alike`), and so a workspace that compiles compiles to the same program if its
blocks are refined (`Workspace.compileStacks_keeps`).
-/

namespace TablePipeline

open Outcome (Keeps)

/-- The second content is the first, if the first is not held as it is. -/
inductive Field.RefinedBy {β : Type} (R : β → β → Prop) : Field β → Field β → Prop
  | number (n : Json.Number) : RefinedBy R (.number n) (.number n)
  | text (s : String) : RefinedBy R (.text s) (.text s)
  | block {b c : β} (refined : R b c) : RefinedBy R (.block b) (.block c)
  | blocks {bs cs : List β} (refined : List.Forall₂ R bs cs) : RefinedBy R (.blocks bs) (.blocks cs)
  | other (j : Json) (f : Field β) : RefinedBy R (.other j) f

/-- The names are the same and what stands under them is related. -/
inductive SameName {α : Type} (R : α → α → Prop) : String × α → String × α → Prop
  | intro (name : String) {a b : α} (related : R a b) : SameName R (name, a) (name, b)

/-- The second block is the first, but for what the fields of the first hold as it is. -/
inductive Block.RefinedBy : Block → Block → Prop
  | intro (id : Option String) (kind : String) {fields fields' : List (String × Field Block)}
      {next next' : Option Block}
      (fields_refined : List.Forall₂ (SameName (Field.RefinedBy RefinedBy)) fields fields')
      (next_refined : Option.Rel RefinedBy next next') :
      RefinedBy ⟨id, kind, fields, next⟩ ⟨id, kind, fields', next'⟩

/-- The contents of two fields, where those of the second refine those of the first. -/
abbrev Field.Refined : Field Block → Field Block → Prop := Field.RefinedBy Block.RefinedBy

theorem map_fst_of_sameName {α : Type} {R : α → α → Prop} {as bs : List (String × α)}
    (h : List.Forall₂ (SameName R) as bs) : as.map (·.1) = bs.map (·.1) := by
  induction h with
  | nil => rfl
  | cons hfirst _ ih =>
    cases hfirst
    rw [List.map_cons, List.map_cons, ih]

theorem lookup_of_sameName {α : Type} {R : α → α → Prop} {as bs : List (String × α)}
    (h : List.Forall₂ (SameName R) as bs) (name : String) :
    Option.Rel R (as.lookup name) (bs.lookup name) := by
  induction h with
  | nil => exact .none
  | cons hfirst _ ih =>
    obtain ⟨key, hrelated⟩ := hfirst
    rw [List.lookup_cons, List.lookup_cons]
    cases name == key with
    | true => exact .some hrelated
    | false => exact ih

/-! ### What refined blocks stand for -/

theorem Field.RefinedBy.alikeBy {β : Type} {R : β → β → Prop} {f g : Field β}
    (h : f.RefinedBy R g) : f.AlikeBy True R g := by
  cases h with
  | number n => exact .number n
  | text s => exact .text s
  | block hbc => exact .block hbc
  | blocks hbcs => exact .blocks hbcs
  | other j g => exact .lost trivial j g

namespace Block

theorem RefinedBy.alike {b c : Block} (h : b.RefinedBy c) : b.Alike True c := by
  refine Alike.of_simulation (fun b c hbc => ?_) h
  cases hbc with
  | @intro id kind fields fields' _ _ hfields =>
    refine ⟨rfl, fun field _ => ?_⟩
    have hlookup := lookup_of_sameName hfields field
    show Option.Rel _ (fields.lookup field) (fields'.lookup field)
    generalize fields.lookup field = found, fields'.lookup field = found' at hlookup ⊢
    cases hlookup with
    | none => exact .none
    | some hfg => exact .some hfg.alikeBy

theorem chain_refinedBy : ∀ b c : Block, b.RefinedBy c → List.Forall₂ RefinedBy b.chain c.chain
  | ⟨id, kind, fields, none⟩, _, .intro _ _ hfields .none => by
    rw [chain, chain]
    exact .cons (.intro id kind hfields .none) .nil
  | ⟨id, kind, fields, some below⟩, _, .intro _ _ hfields (.some hbelow) => by
    have hrest := chain_refinedBy below _ hbelow
    rw [chain, chain]
    exact .cons (.intro id kind hfields (.some hbelow)) hrest

end Block

theorem Workspace.compileStacks_keeps {defaultBins stack : Nat} {heads heads' : List Block}
    (h : List.Forall₂ Block.RefinedBy heads heads') :
    Keeps Eq (compileStacks defaultBins stack heads) (compileStacks defaultBins stack heads') := by
  have hchains (head head' : Block) (hhead : head.RefinedBy head') :
      List.Forall₂ (Block.Alike True) head.chain head'.chain :=
    (Block.chain_refinedBy head head' hhead).imp fun _ _ hbc => hbc.alike
  exact (compileStacks_matches defaultBins stack (h.imp hchains)).keeps

end TablePipeline
