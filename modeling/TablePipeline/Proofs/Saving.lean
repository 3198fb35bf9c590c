import TablePipeline.Proofs.Refinement
import TablePipeline.Proofs.Reload
import TablePipeline.Proofs.ScannedNumbers
/-!
# Saving a workspace and reading it again

The text of a workspace that was read is read again. What is read then refines the workspace, and is
the same workspace unless a field of it holds something as it is that has the shape of a block
(`Workspace.parse?_text_of_parse?`). That takes an object with a key of blocks twice: such an object
is no block, but only one of the two is kept, and so a block is written.
-/

namespace TablePipeline

open Json (Raw Held)
open Json.Raw (KeysOnce Tidy mem_children_of_parts? isSome_keep?_child
  isSome_keep?_mono)
open Outcome (mapM_eq_some_iff isSome_mapM_iff exists_of_forall₂_right)

variable {r : Raw} {depth : Nat} {b c : Block} {f g : Field Block}

namespace Block

/-- What is read of the text of a field refines the field, if that is so for blocks. -/
theorem refined_of_ofRaw? (hread : ∀ b c : Block, b.Proper Held →
      ofRaw? depth b.toJson.toRaw = some c → b.RefinedBy c)
    (hf : ProperField Held f)
    (h : Field.ofRaw? depth (ofRaw? depth) (fieldToJson f).toRaw = some g) :
    Field.Refined f g := by
  have hkept : ((fieldToJson f).toRaw.keep? depth).isSome = true := by
    rw [← Field.isSome_ofRaw? (ofRaw? depth), h]
    rfl
  cases f with
  | number n =>
    rw [fieldToJson, Json.toRaw, Field.ofRaw?, Raw.keep?] at h
    cases h
    exact .number n
  | text s =>
    rw [fieldToJson, Json.toRaw, Field.ofRaw?, Raw.keep?] at h
    cases h
    exact .text s
  | block b =>
    rw [fieldToJson] at h hkept
    have hagain := isSome_ofRaw?_toJson hf ((Json.isSome_keep?_toRaw _ _).mp hkept)
    have hblock := hread b
    obtain ⟨members, hmembers⟩ := toRaw_toJson b
    rw [hmembers] at h hagain hblock
    cases Field.ofRaw?_eq_some.mp h with
    | block _ _ hc => exact .block (hblock _ hf hc)
    | other _ _ hunread =>
      rw [hunread] at hagain
      cases hagain
  | blocks bs =>
    obtain ⟨hne, hbs⟩ := hf
    rw [properBlocks_iff] at hbs
    rw [fieldToJson, Json.toRaw, Json.itemsToRaw_eq, blocksToJson_eq, List.map_map] at h hkept
    have hagain (b : Block) (hb : b ∈ bs) : (ofRaw? depth b.toJson.toRaw).isSome = true := by
      obtain ⟨d, rfl, hless⟩ := isSome_keep?_child hkept (List.mem_map_of_mem hb)
      have hdeep := (Json.isSome_keep?_toRaw _ _).mp (isSome_keep?_mono hless (Nat.le_succ d))
      exact isSome_ofRaw?_toJson (hbs b hb) hdeep
    cases Field.ofRaw?_eq_some.mp h with
    | block _ _ hc =>
      cases bs with
      | nil => exact absurd rfl hne
      | cons b bs =>
        obtain ⟨members, hmembers⟩ := toRaw_toJson b
        rw [List.map_cons, Function.comp_apply, hmembers, ofRaw?_array_object] at hc
        cases hc
    | blocks _ _ hcs =>
      have hall := mapM_eq_some_iff.mp hcs
      rw [List.forall₂_map_left_iff] at hall
      refine .blocks (((List.forall₂_and_left bs _).mpr ⟨hbs, hall⟩).imp fun b c hbc => ?_)
      exact hread b c hbc.1 hbc.2
    | other _ _ _ hunlisted =>
      have hsome : ((bs.map (Json.toRaw ∘ toJson)).mapM (ofRaw? depth)).isSome = true :=
        isSome_mapM_iff.mpr (List.forall_mem_map.mpr hagain)
      rw [hunlisted _ rfl] at hsome
      cases hsome
  | other j => exact .other j g

/-- The fields that are read of the text of some fields refine them, one by one. -/
theorem refined_of_readFields? {fields fields' : List (String × Field Block)}
    (hread : ∀ d < depth, ∀ f g : Field Block, ProperField Held f →
      Field.ofRaw? d (ofRaw? d) (fieldToJson f).toRaw = some g → Field.Refined f g)
    (hsorted : SortedByName fields) (hfields : ProperFields Held fields)
    (h : readFields? depth fields = some fields') :
    List.Forall₂ (SameName Field.Refined) fields fields' := by
  cases fields with
  | nil =>
    cases h
    exact .nil
  | cons f fields =>
    cases depth with
    | zero => cases h
    | succ depth =>
      rw [readFields?_cons] at h
      obtain ⟨read, hmap, hsort⟩ := Option.bind_eq_some_iff.mp h
      cases hsort
      have hall := mapM_eq_some_iff.mp hmap
      rw [fieldsToJson_eq, List.map_map, List.forall₂_map_left_iff] at hall
      have hproper := (List.forall₂_and_left _ _).mpr ⟨properFields_iff.mp hfields, hall⟩
      have hrefined : List.Forall₂ (SameName Field.Refined) (f :: fields) read := by
        refine hproper.imp fun e e' he => ?_
        obtain ⟨g, hg, heq⟩ := Option.bind_eq_some_iff.mp he.2
        cases heq
        exact .intro e.1 (hread depth (Nat.lt_succ_self depth) e.2 g he.1 hg)
      -- They have the names of the fields, and so they are sorted already.
      have hnames := map_fst_of_sameName hrefined
      have hsorted' : SortedByName read := by
        have hpairs : ((f :: fields).map (·.1)).Pairwise (· < ·) := List.pairwise_map.mpr hsorted
        rw [hnames] at hpairs
        exact List.pairwise_map.mp hpairs
      rw [sortByName_eq_self hsorted']
      exact hrefined

/-- What is read of the text of a proper block refines the block. -/
theorem refinedBy_of_ofRaw? (hb : b.Proper Held) (h : ofRaw? depth b.toJson.toRaw = some c) :
    b.RefinedBy c := by
  induction depth using Nat.strong_induction_on generalizing b c with
  | _ depth ih =>
    cases depth with
    | zero => cases h
    | succ depth =>
      obtain ⟨id, kind, fields, next⟩ := b
      obtain ⟨hsorted, hfields, hnext⟩ := hb
      rw [ofRaw?_parts] at h
      obtain ⟨fields', hread, h⟩ := Option.bind_eq_some_iff.mp h
      obtain ⟨next', hbelow, h⟩ := Option.bind_eq_some_iff.mp h
      cases h
      refine .intro id kind ?_ ?_
      · refine refined_of_readFields? (fun d hd f g hf hg => ?_) hsorted hfields hread
        exact refined_of_ofRaw? (fun b c hb hc => ih d (by omega) hb hc) hf hg
      · cases next with
        | none =>
          cases hbelow
          exact .none
        | some below =>
          obtain ⟨c, hc, heq⟩ := Option.map_eq_some_iff.mp hbelow
          cases heq
          exact .some (ih depth (by omega) hnext hc)

end Block

namespace Workspace

variable {w : Workspace}

/-- The heads of a workspace are read from the trees two levels below. -/
theorem heads_of_ofRaw? (h : ofRaw? r = some w) :
    ∀ b ∈ w.heads, ∃ s ∈ r.children, ∃ item ∈ s.children, Block.ofRaw? 125 item = some b := by
  intro b hb
  obtain ⟨parts, hparts, h⟩ := Option.bind_eq_some_iff.mp h
  split at h
  · cases h
    cases hb
  · next list =>
    obtain ⟨heads, hheads, h⟩ := Option.bind_eq_some_iff.mp h
    cases h
    refine ⟨list, mem_children_of_parts? hparts (by simp), ?_⟩
    cases list with
    | array items => exact exists_of_forall₂_right (mapM_eq_some_iff.mp hheads) hb
    | null | bool b | number n | string s | object members => cases hheads
  · cases h

/-- What holds of all blocks that are read of trees with `Q` everywhere holds of the heads. -/
theorem forall_heads {Q : Raw → Prop} {C : Block → Prop} (hr : r.Everywhere Q)
    (h : ofRaw? r = some w)
    (hblock : ∀ item b, item.Everywhere Q → Block.ofRaw? 125 item = some b → C b) :
    ∀ b ∈ w.heads, C b := by
  intro b hb
  obtain ⟨s, hs, item, hitem, hread⟩ := heads_of_ofRaw? h b hb
  exact hblock item b ((hr.child hs).child hitem) hread

/-- What the fields of the workspace hold as it is is not what a block or a list of blocks is
written as. -/
def Settled (w : Workspace) : Prop := ProperBlocks Json.Settled w.heads

/-- A workspace that is held is read again. What is read is settled and refines it. -/
theorem exists_parse?_text (hw : ProperBlocks Held w.heads)
    (hdeep : ∀ b ∈ w.heads, b.toJson.nesting ≤ 125) :
    ∃ saved, parse? w.text = some saved ∧ saved.Settled ∧
      (∀ b ∈ saved.heads, b.toJson.nesting ≤ 125) ∧
      List.Forall₂ Block.RefinedBy w.heads saved.heads := by
  rw [parse?_text_eq (readsBack_toJson (fun _ hj => hj.kept.readsBack) hw), Json.itemsToRaw_eq,
    blocksToJson_eq, List.map_map]
  rw [properBlocks_iff] at hw
  have hsome : ((w.heads.map (Json.toRaw ∘ Block.toJson)).mapM (Block.ofRaw? 125)).isSome = true :=
    isSome_mapM_iff.mpr
      (List.forall_mem_map.mpr fun b hb => Block.isSome_ofRaw?_toJson (hw b hb) (hdeep b hb))
  obtain ⟨heads, hheads⟩ := Option.isSome_iff_exists.mp hsome
  have hall := mapM_eq_some_iff.mp hheads
  rw [List.forall₂_map_left_iff] at hall
  have hread := (List.forall₂_and_left _ _).mpr ⟨hw, hall⟩
  have htidy (b : Block) (hb : b.Proper Held) : b.toJson.toRaw.Everywhere Tidy :=
    tidy_toJson (fun _ hj => hj.kept.tidy) b hb
  refine ⟨⟨heads⟩, by rw [hheads]; rfl, properBlocks_iff.mpr fun c hc => ?_, fun c hc => ?_, ?_⟩
  · obtain ⟨b, -, hb, hbc⟩ := exists_of_forall₂_right hread hc
    exact Block.settled_of_ofRaw? (htidy b hb) hbc
  · obtain ⟨b, -, hb, hbc⟩ := exists_of_forall₂_right hread hc
    exact Block.nesting_of_ofRaw? ((htidy b hb).imp fun _ hs => hs.number)
      (.inl (Nat.le_refl 125)) hbc
  · exact hread.imp fun b c hbc => Block.refinedBy_of_ofRaw? hbc.1 hbc.2

/-- A settled workspace is read back from its text as it is. -/
theorem Settled.parse?_text (hw : w.Settled) (hdeep : ∀ b ∈ w.heads, b.toJson.nesting ≤ 125) :
    parse? w.text = some w := by
  refine (Workspace.parse?_text hw).eq_some ?_
  rw [textNesting_text hw, w.nesting_toJson, Raw.maxDepth]
  have hitems : Json.itemsNesting (blocksToJson w.heads) ≤ 125 := by
    rw [Json.itemsNesting_le, blocksToJson_eq]
    exact List.forall_mem_map.mpr hdeep
  omega

/-- A workspace that was read from a text of whole numbers is read again from its own text, and what
is read then stays as it is. It is the same workspace if and only if that was settled, as it is if
no object of the text has a key of blocks twice. It compiles to the same program in any case, if the
workspace compiles. -/
theorem parse?_text_of_parse? {text : String} (hscan : Raw.parse? text = some r)
    (hparse : parse? text = some w) (hwhole : r.Everywhere Raw.WholeNumber) :
    ∃ saved, parse? w.text = some saved ∧ (saved = w ↔ w.Settled) ∧
      (r.Everywhere KeysOnce → saved = w) ∧
      (∀ bins c, w.compile bins = .ok c → saved.compile bins = .ok c) ∧
      parse? saved.text = some saved := by
  have hread : ofRaw? r = some w := by
    rw [parse?, hscan] at hparse
    exact hparse
  have hnumbers := Raw.numberReadsBack_of_parse? hscan hwhole
  have hheld : ProperBlocks Held w.heads :=
    properBlocks_iff.mpr (forall_heads hnumbers hread fun _ _ => Block.held_of_ofRaw?)
  have hdeep : ∀ b ∈ w.heads, b.toJson.nesting ≤ 125 :=
    forall_heads hnumbers hread fun _ _ hitem =>
      Block.nesting_of_ofRaw? hitem (.inl (Nat.le_refl 125))
  obtain ⟨saved, hsaved, hsettled, hdeep', hrefined⟩ := exists_parse?_text hheld hdeep
  have hsame : saved = w ↔ w.Settled := by
    refine ⟨fun heq => heq ▸ hsettled, fun hw => ?_⟩
    rw [hw.parse?_text hdeep] at hsaved
    exact (Option.some.inj hsaved).symm
  refine ⟨saved, hsaved, hsame, fun honce => hsame.mpr ?_, fun bins c hc => ?_, ?_⟩
  · have htidy : r.Everywhere Tidy := fun s hs => ⟨hnumbers s hs, honce s hs⟩
    exact properBlocks_iff.mpr (forall_heads htidy hread fun _ _ => Block.settled_of_ofRaw?)
  · obtain ⟨_, hcompile, rfl⟩ := compileStacks_keeps hrefined c hc
    exact hcompile
  · exact hsettled.parse?_text hdeep'

/-- A block written as an array, a null for its name, a key twice that nothing knows, and values
that no field can use. -/
def mixedForms : String :=
  "\x7b\"v\":2,\"stacks\":[[null,\"data_people\",\x7b\"name\":-0,\"note\":[true]\x7d,"
    ++ "\x7b\"type\":\"ggplot_hist\",\"fields\":\x7b\"Column\":\"age\",\"bins\":5\x7d\x7d]],"
    ++ "\"v\":3\x7d"

theorem parse?_text_mixedForms : ∃ w, parse? mixedForms = some w ∧ parse? w.text = some w ∧
    w.compile 10 = .ok ⟨[[.load "people", .visualize (.histogram "age" 5)]], 0⟩ := by
  have hforms : (Raw.parse? mixedForms).map (fun r =>
        (decide (r.Everywhere Raw.WholeNumber ∧ r.Everywhere KeysOnce),
          (ofRaw? r).map (compile 10)))
      = some (true, some (.ok ⟨[[.load "people", .visualize (.histogram "age" 5)]], 0⟩)) := by
    decide +kernel
  obtain ⟨r, hscan, hr⟩ := Option.map_eq_some_iff.mp hforms
  obtain ⟨htrue, hcompile⟩ := Prod.mk.inj hr
  obtain ⟨w, hread, hw⟩ := Option.map_eq_some_iff.mp hcompile
  obtain ⟨hwhole, honce⟩ := of_decide_eq_true htrue
  have hparse : parse? mixedForms = some w := by
    rw [parse?, hscan]
    exact hread
  obtain ⟨saved, hsaved, -, hsame, -⟩ := parse?_text_of_parse? hscan hparse hwhole
  obtain rfl := hsame honce
  exact ⟨saved, hparse, hsaved, hw⟩

/-- A filter whose condition has its type twice. -/
def typeTwice : String :=
  "\x7b\"stacks\":[\x7b\"type\":\"data_colors\",\"next\":\x7b\"type\":\"dplyr_filter\",\"fields\":"
    ++ "\x7b\"Column\":\x7b\"type\":\"\",\"type\":\"variable_missing\"\x7d\x7d\x7d\x7d]\x7d"

/-- A filter of the colors with the given condition. -/
def filterOf (condition : Field Block) : Workspace :=
  .ofChains [[.ofFields "data_colors" [], .ofFields "dplyr_filter" [("Column", condition)]]]

theorem parse?_typeTwice : parse? typeTwice
    = some (filterOf (.other (.object [("type", .string "variable_missing")]))) := by
  cbv

/-- The condition is no block, until it is saved. -/
theorem typeTwice_changes : ∃ w saved, parse? typeTwice = some w ∧ parse? w.text = some saved ∧
    saved ≠ w ∧
    w.compile 10
      = .error ⟨"#0.1", .wrongField "Column" "an expression block" "unsupported value"⟩ ∧
    saved.compile 10 = .ok ⟨[[.load "colors", .filter (.literal .missing)]], 0⟩ := by
  have hagain : parse? (filterOf (.other (.object [("type", .string "variable_missing")]))).text
      = some (filterOf (.block (.ofFields "variable_missing" []))) := by
    rw [parse?_text_eq]
    · cbv
    · trivial
  refine ⟨_, _, parse?_typeTwice, hagain, fun heq => ?_, rfl, rfl⟩
  cases heq

end Workspace

end TablePipeline
