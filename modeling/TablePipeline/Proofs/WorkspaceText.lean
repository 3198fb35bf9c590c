import TablePipeline.Proofs.BlockReader
import TablePipeline.Proofs.Brackets
import TablePipeline.Workspace.Writer
/-!
# Reading workspaces back

A workspace of proper blocks is read back from its text if the text does not nest too deep, and is
refused if it does (`Workspace.parse?_text`).
-/

namespace TablePipeline

open Json (Raw nesting itemsNesting membersNesting membersToRaw itemsToRaw textNesting)
open Outcome (Gives)

section Proper

variable (P : Json → Prop)

mutual

/-- The fields of the block and of all blocks in it are sorted, and they hold numbers that read
back, texts, blocks, lists of blocks that are not empty, and other values that satisfy `P`. -/
def Block.Proper : Block → Prop
  | ⟨_, _, fields, next⟩ => SortedByName fields ∧ ProperFields fields ∧ ProperNext next

def ProperNext : Option Block → Prop
  | none => True
  | some b => b.Proper

def ProperFields : List (String × Field Block) → Prop
  | [] => True
  | (_, f) :: rest => ProperField f ∧ ProperFields rest

def ProperField : Field Block → Prop
  | .number n => n.ReadsBack
  | .text _ => True
  | .block b => b.Proper
  | .blocks bs => bs ≠ [] ∧ ProperBlocks bs
  | .other j => P j

def ProperBlocks : List Block → Prop
  | [] => True
  | b :: bs => b.Proper ∧ ProperBlocks bs

end

end Proper

variable {P : Json → Prop}

theorem properFields_iff {fields : List (String × Field Block)} :
    ProperFields P fields ↔ ∀ e ∈ fields, ProperField P e.2 := by
  induction fields with
  | nil => simp [ProperFields]
  | cons e fields ih =>
    obtain ⟨name, f⟩ := e
    rw [ProperFields, ih, List.forall_mem_cons]

theorem properBlocks_iff {bs : List Block} : ProperBlocks P bs ↔ ∀ b ∈ bs, b.Proper P := by
  induction bs with
  | nil => simp [ProperBlocks]
  | cons b bs ih => rw [ProperBlocks, ih, List.forall_mem_cons]

theorem blocksToJson_eq (bs : List Block) : blocksToJson bs = bs.map Block.toJson := by
  induction bs with
  | nil => simp [blocksToJson]
  | cons b bs ih => rw [blocksToJson, ih, List.map_cons]

theorem fieldsToJson_eq (fields : List (String × Field Block)) :
    fieldsToJson fields = fields.map fun e => (e.1, fieldToJson e.2) := by
  induction fields with
  | nil => simp [fieldsToJson]
  | cons e fields ih => rw [fieldsToJson, ih, List.map_cons]

/-- The member of the fields of a block, left out if there are none. -/
def fieldsMember (fields : List (String × Field Block)) : Option Raw :=
  if fields.isEmpty then none else some (Json.object (fieldsToJson fields)).toRaw

/-- The parts of a block are where the reader looks for them. -/
theorem parts?_toRaw (id : Option String) (kind : String) (fields : List (String × Field Block))
    (next : Option Block) :
    (Block.toJson ⟨id, kind, fields, next⟩).toRaw.parts? ["id", "type", "fields", "next"]
      = some [id.map fun s => .string (some s), some (.string (some kind)), fieldsMember fields,
          next.map fun b => b.toJson.toRaw] := by
  cases id <;> cases fields <;> cases next <;> rfl

/-- A block nests as deep as its fields and the block below it, and one deeper. -/
theorem nesting_toJson_le {id : Option String} {kind : String}
    {fields : List (String × Field Block)} {next : Option Block} {d : Nat} :
    (Block.toJson ⟨id, kind, fields, next⟩).nesting ≤ d + 1 ↔
      (fields ≠ [] → membersNesting (fieldsToJson fields) + 1 ≤ d) ∧
        ∀ b ∈ next, b.toJson.nesting ≤ d := by
  cases id <;> cases fields <;> cases next <;>
    simp [Block.toJson, nextToJson, nesting, membersNesting]

theorem nesting_toJson_pos (b : Block) : ¬ b.toJson.nesting ≤ 0 := by
  obtain ⟨id, kind, fields, next⟩ := b
  rw [Block.toJson.eq_def]
  exact Nat.not_succ_le_zero _

def readFields? (depth : Nat) (fields : List (String × Field Block)) :
    Option (List (String × Field Block)) :=
  if fields.isEmpty then some []
  else
    match depth with
    | 0 => none
    | inner + 1 => Block.fieldsOfRaw? (Field.ofRaw? inner (Block.ofRaw? inner))
        (Json.object (fieldsToJson fields)).toRaw

def readNext? (depth : Nat) : Option Block → Option (Option Block)
  | none => some none
  | some b => (Block.ofRaw? depth b.toJson.toRaw).map some

/-- A block is written as an object. -/
theorem toRaw_toJson (b : Block) : ∃ members, b.toJson.toRaw = .object members := by
  obtain ⟨id, kind, fields, next⟩ := b
  rw [Block.toJson.eq_def]
  exact ⟨_, rfl⟩

theorem ofRaw?_parts (id : Option String) (kind : String) (fields : List (String × Field Block))
    (next : Option Block) (depth : Nat) :
    Block.ofRaw? (depth + 1) (Block.toJson ⟨id, kind, fields, next⟩).toRaw = (do
      let fields ← readFields? depth fields
      let next ← readNext? depth next
      return ⟨id, kind, fields, next⟩) := by
  rw [Block.ofRaw?, parts?_toRaw]
  cases next with
  | none => cases id <;> cases fields <;> cases depth <;> rfl
  | some b =>
    -- An object is not null, so the block below is read.
    obtain ⟨members, hmembers⟩ := toRaw_toJson b
    rw [Option.map_some, readNext?, hmembers]
    cases id <;> cases fields <;> cases depth <;> rfl

section Fields

variable {depth : Nat} {readBlock : Raw → Option Block} {members : List (Option String × Raw)}
  {items : List Raw}

/-- What nests too deep is no field, whatever it holds. -/
theorem ofRaw?_gives {j : Json} {f : Field Block}
    (h : j.nesting ≤ depth → Field.ofRaw? depth readBlock j.toRaw = some f) :
    Gives f (j.nesting ≤ depth) (Field.ofRaw? depth readBlock j.toRaw) := by
  have hkeep := Json.isSome_keep?_toRaw j depth
  by_cases hdeep : j.nesting ≤ depth
  · rw [h hdeep]
    exact Gives.some.congr (iff_of_true trivial hdeep)
  · rw [Field.ofRaw?, Option.not_isSome_iff_eq_none.mp (mt hkeep.mp hdeep)]
    exact .none hdeep

theorem ofRaw?_block {b : Block} (hkeep : ((Raw.object members).keep? depth).isSome = true)
    (hread : readBlock (.object members) = some b) :
    Field.ofRaw? depth readBlock (.object members) = some (.block b) := by
  obtain ⟨j, hj⟩ := Option.isSome_iff_exists.mp hkeep
  exact Field.ofRaw?_eq_some.mpr (.block hj (Field.compound_of_keep?_object hj) hread)

theorem ofRaw?_blocks {bs : List Block} (hkeep : ((Raw.array items).keep? depth).isSome = true)
    (hblock : readBlock (.array items) = none) (hread : items.mapM readBlock = some bs) :
    Field.ofRaw? depth readBlock (.array items) = some (.blocks bs) := by
  obtain ⟨j, hj⟩ := Option.isSome_iff_exists.mp hkeep
  exact Field.ofRaw?_eq_some.mpr (.blocks hj hblock hread)

/-- A list that starts with an object is no block written as an array: there the name stands
first. -/
theorem ofRaw?_array_object : Block.ofRaw? depth (.array (.object members :: items)) = none := by
  cases depth with
  | zero => rfl
  | succ depth =>
    rw [Block.ofRaw?]
    obtain _ | ⟨a, _ | ⟨b, _ | ⟨c, _ | ⟨d, rest⟩⟩⟩⟩ := items
    · rfl
    · rfl
    · rfl
    · rfl
    · have hlength : ¬ (Raw.object members :: a :: b :: c :: d :: rest).length ≤ 4 := by
        simp only [List.length_cons]
        omega
      have hparts : (Raw.array (.object members :: a :: b :: c :: d :: rest)).parts?
          ["id", "type", "fields", "next"] = none := by
        rw [Raw.parts?]
        exact if_neg hlength
      rw [hparts]
      rfl

end Fields

def readNamed? (depth : Nat) (m : String × Raw) : Option (String × Field Block) := do
  return (m.1, ← Field.ofRaw? depth (Block.ofRaw? depth) m.2)

theorem keyed?_membersToRaw (members : List (String × Json)) :
    Raw.keyed? (membersToRaw members) = some (members.map fun m => (m.1, m.2.toRaw)) := by
  rw [Raw.keyed?_eq_some, Json.membersToRaw_eq, List.map_map]
  rfl

theorem readFields?_cons (depth : Nat) (f : String × Field Block)
    (fields : List (String × Field Block)) :
    readFields? (depth + 1) (f :: fields) = (do
      let read ← ((fieldsToJson (f :: fields)).map fun m => (m.1, m.2.toRaw)).mapM
        (readNamed? depth)
      return sortByName read) := by
  rw [readFields?, if_neg (by simp), Json.toRaw, Block.fieldsOfRaw?, keyed?_membersToRaw]
  rfl

mutual

/-- A proper block is read back if it does not nest too deep, and is refused if it does. -/
theorem ofRaw?_toJson : ∀ (b : Block), b.Proper Json.Settled → ∀ depth : Nat,
    Gives b (b.toJson.nesting ≤ depth) (Block.ofRaw? depth b.toJson.toRaw)
  | b, _, 0 => by
    rw [Block.ofRaw?]
    exact .none (nesting_toJson_pos b)
  | ⟨id, kind, fields, next⟩, ⟨hsorted, hfields, hnext⟩, depth + 1 => by
    have hread := readFields?_gives fields hsorted hfields depth
    have hbelow := readNext?_gives next hnext depth
    rw [ofRaw?_parts]
    refine (hread.bind (hbelow.map ?_)).congr nesting_toJson_le.symm
    rfl

theorem readNext?_gives : ∀ (next : Option Block), ProperNext Json.Settled next →
    ∀ depth : Nat,
    Gives next (∀ b ∈ next, b.toJson.nesting ≤ depth) (readNext? depth next)
  | none, _, depth => Gives.some.congr (iff_of_true trivial nofun)
  | some b, hb, depth => by
    have hread := ofRaw?_toJson b hb depth
    rw [readNext?, Option.map_eq_bind]
    refine (hread.map ?_).congr (by simp)
    rfl

theorem readFields?_gives : ∀ (fields : List (String × Field Block)), SortedByName fields →
    ProperFields Json.Settled fields → ∀ depth : Nat,
    Gives fields (fields ≠ [] → membersNesting (fieldsToJson fields) + 1 ≤ depth)
      (readFields? depth fields)
  | [], _, _, depth => Gives.some.congr (iff_of_true trivial fun h => absurd rfl h)
  | f :: fields, _, _, 0 => .none fun h => absurd (h (List.cons_ne_nil f fields)) (by simp)
  | f :: fields, hsorted, hfields, depth + 1 => by
    have hread := mapM_readNamed?_gives (f :: fields) hfields depth
    rw [readFields?_cons]
    refine (hread.map ?_).congr (by simp)
    rw [sortByName_eq_self hsorted]
    rfl

theorem mapM_readNamed?_gives : ∀ (fields : List (String × Field Block)),
    ProperFields Json.Settled fields → ∀ depth : Nat,
    Gives fields (membersNesting (fieldsToJson fields) ≤ depth)
      (((fieldsToJson fields).map fun m => (m.1, m.2.toRaw)).mapM (readNamed? depth))
  | [], _, depth => Gives.some.congr (by simp [fieldsToJson, membersNesting])
  | (name, f) :: fields, ⟨hf, hfields⟩, depth => by
    have hread := ofRaw?_fieldToJson f hf depth
    have hrest := mapM_readNamed?_gives fields hfields depth
    rw [fieldsToJson, membersNesting, Nat.max_le, List.map_cons]
    refine Gives.cons (hread.map ?_) hrest
    rfl

theorem ofRaw?_fieldToJson : ∀ (f : Field Block), ProperField Json.Settled f → ∀ depth : Nat,
    Gives f ((fieldToJson f).nesting ≤ depth)
      (Field.ofRaw? depth (Block.ofRaw? depth) (fieldToJson f).toRaw)
  | .number n, _, depth | .text s, _, depth => by
    rw [fieldToJson, Json.toRaw, Field.ofRaw?, Raw.keep?]
    exact Gives.some.congr (by simp [nesting])
  | .block b, hb, depth => by
    refine ofRaw?_gives fun hdeep => ?_
    obtain ⟨members, hmembers⟩ := toRaw_toJson b
    have hread := (ofRaw?_toJson b hb depth).eq_some hdeep
    have hkeep := (Json.isSome_keep?_toRaw b.toJson depth).mpr hdeep
    rw [fieldToJson]
    rw [hmembers] at hread hkeep ⊢
    exact ofRaw?_block hkeep hread
  | .blocks bs, ⟨hne, hbs⟩, depth => by
    refine ofRaw?_gives fun hdeep => ?_
    rw [fieldToJson] at hdeep ⊢
    have hkeep := (Json.isSome_keep?_toRaw _ depth).mpr hdeep
    have hitems : itemsNesting (blocksToJson bs) ≤ depth := by
      rw [nesting] at hdeep
      omega
    rw [Json.toRaw] at hkeep ⊢
    refine ofRaw?_blocks hkeep ?_ ((mapM_ofRaw?_gives bs hbs depth).eq_some hitems)
    cases bs with
    | nil => exact absurd rfl hne
    | cons b bs =>
      obtain ⟨members, hmembers⟩ := toRaw_toJson b
      rw [blocksToJson, itemsToRaw, hmembers]
      exact ofRaw?_array_object
  | .other j, hj, depth => ofRaw?_gives fun hdeep => hj.ofRaw? hdeep

theorem mapM_ofRaw?_gives : ∀ (bs : List Block), ProperBlocks Json.Settled bs → ∀ depth : Nat,
    Gives bs (itemsNesting (blocksToJson bs) ≤ depth)
      ((itemsToRaw (blocksToJson bs)).mapM (Block.ofRaw? depth))
  | [], _, depth => Gives.some.congr (by simp [blocksToJson, itemsNesting])
  | b :: bs, ⟨hb, hbs⟩, depth => by
    have hread := ofRaw?_toJson b hb depth
    have hrest := mapM_ofRaw?_gives bs hbs depth
    rw [blocksToJson, itemsNesting, Nat.max_le, itemsToRaw]
    exact hread.cons hrest

end

mutual

/-- All numbers that are written for a proper block read back. -/
theorem readsBack_toJson (hP : ∀ j, P j → j.ReadsBack) :
    ∀ (b : Block), b.Proper P → b.toJson.ReadsBack
  | ⟨id, kind, fields, next⟩, ⟨_, hfields, hnext⟩ => by
    have hmembers := readsBack_fieldsToJson hP fields hfields
    have hbelow := readsBack_nextToJson hP next hnext
    cases id <;> cases fields <;> cases next <;>
      simp_all [Block.toJson, nextToJson, Json.ReadsBack, Json.MembersReadBack]

theorem readsBack_nextToJson (hP : ∀ j, P j → j.ReadsBack) :
    ∀ (next : Option Block), ProperNext P next → ∀ b ∈ next, b.toJson.ReadsBack
  | none, _, _, hb => nomatch hb
  | some b, hb, c, hc => by
    cases hc
    exact readsBack_toJson hP b hb

theorem readsBack_fieldsToJson (hP : ∀ j, P j → j.ReadsBack) :
    ∀ (fields : List (String × Field Block)), ProperFields P fields →
    Json.MembersReadBack (fieldsToJson fields)
  | [], _ => by simp [fieldsToJson, Json.MembersReadBack]
  | (name, f) :: fields, ⟨hf, hfields⟩ => by
    rw [fieldsToJson]
    exact ⟨readsBack_fieldToJson hP f hf, readsBack_fieldsToJson hP fields hfields⟩

theorem readsBack_fieldToJson (hP : ∀ j, P j → j.ReadsBack) :
    ∀ (f : Field Block), ProperField P f → (fieldToJson f).ReadsBack
  | .number _, hn => hn
  | .text _, _ => trivial
  | .block b, hb => readsBack_toJson hP b hb
  | .blocks bs, ⟨_, hbs⟩ => readsBack_blocksToJson hP bs hbs
  | .other j, hj => hP j hj

theorem readsBack_blocksToJson (hP : ∀ j, P j → j.ReadsBack) :
    ∀ (bs : List Block), ProperBlocks P bs → Json.ItemsReadBack (blocksToJson bs)
  | [], _ => by simp [blocksToJson, Json.ItemsReadBack]
  | b :: bs, ⟨hb, hbs⟩ => by
    rw [blocksToJson]
    exact ⟨readsBack_toJson hP b hb, readsBack_blocksToJson hP bs hbs⟩

end

namespace Workspace

variable {w : Workspace}

theorem nesting_toJson (w : Workspace) :
    w.toJson.nesting = itemsNesting (blocksToJson w.heads) + 2 := by
  simp [toJson, nesting, membersNesting]

theorem readsBack_toJson (hP : ∀ j, P j → j.ReadsBack) (h : ProperBlocks P w.heads) :
    w.toJson.ReadsBack :=
  ⟨readsBack_blocksToJson hP w.heads h, trivial⟩

theorem textNesting_text (h : ProperBlocks Json.Settled w.heads) :
    textNesting w.text = w.toJson.nesting :=
  Json.textNesting_pretty (readsBack_toJson (fun _ hj => hj.held.kept.readsBack) h)

/-- The text of a workspace is read as the workspace is written. -/
theorem parse?_text_eq (h : w.toJson.ReadsBack) : parse? w.text = (do
    let heads ← (itemsToRaw (blocksToJson w.heads)).mapM (Block.ofRaw? 125)
    return { heads }) := by
  rw [parse?, text, Json.parse?_pretty h]
  rfl

/-- The text of a workspace of proper blocks is read back as the workspace if it does not nest too
deep, and is refused if it does. -/
theorem parse?_text (h : ProperBlocks Json.Settled w.heads) :
    Gives w (textNesting w.text ≤ Raw.maxDepth) (parse? w.text) := by
  have hheads := mapM_ofRaw?_gives w.heads h 125
  rw [textNesting_text h, parse?_text_eq (readsBack_toJson (fun _ hj => hj.held.kept.readsBack) h)]
  refine (hheads.map ?_).congr ?_
  · rfl
  · rw [w.nesting_toJson, Raw.maxDepth]
    omega

end Workspace

end TablePipeline
