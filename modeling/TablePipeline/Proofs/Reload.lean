import TablePipeline.Proofs.WorkspaceText
/-!
# Blocks that are read, written and read again

Blocks that are read are proper: their fields are sorted, their numbers read back, and what they
hold as it is was kept (`Block.proper_of_ofRaw?`). They nest no deeper than the tree they are read
from may (`Block.nesting_of_ofRaw?`). What is written for such a block repeats no key and has the
shape of a block, and so it is read again as some block (`Block.isSome_ofRaw?_toJson`).
-/

namespace TablePipeline

open Json (Raw Held nesting)
open Json.Raw (NumberReadsBack Tidy everywhere_iff everywhere_of_leaf hasPart_of_parts?
  mem_children_of_parts? isSome_keep?_child isSome_keep?_mono)
open Outcome (mapM_eq_some_iff exists_of_forall₂_right)

variable {r s v : Raw} {depth n : Nat} {b : Block} {f : Field Block} {P : Json → Prop}

/-! ### What blocks are read from -/

namespace Block

/-- The fields of a block are read from the trees two levels below. -/
theorem fields_of_ofRaw? (h : ofRaw? depth r = some b) :
    SortedByName b.fields ∧ ∀ e ∈ b.fields, ∃ d, ∃ s ∈ r.children, ∃ v ∈ s.children,
      depth = d + 2 ∧ Field.ofRaw? d (ofRaw? d) v = some e.2 := by
  cases depth with
  | zero => cases h
  | succ depth =>
    obtain ⟨id, kind, fields, next, hparts, -, -, hfields, -⟩ := ofRaw?_eq_some.mp h
    generalize b.fields = found at hfields
    cases fields with
    | none =>
      cases hfields
      refine ⟨.nil, fun e he => ?_⟩
      cases he
    | some value =>
      cases depth with
      | zero => cases hfields
      | succ depth =>
        cases value with
        | null | bool b | number n | string s | array items => cases hfields
        | object members =>
          obtain ⟨named, hnamed, hread⟩ := Option.bind_eq_some_iff.mp hfields
          obtain ⟨read, hmap, hsort⟩ := Option.bind_eq_some_iff.mp hread
          cases hsort
          refine ⟨sortedByName_sortByName read, fun e he => ?_⟩
          obtain ⟨m, hm, hfield⟩ := exists_of_forall₂_right (mapM_eq_some_iff.mp hmap)
            (mem_of_mem_sortByName he)
          obtain ⟨f, hf, hpair⟩ := Option.bind_eq_some_iff.mp hfield
          cases hpair
          refine ⟨depth, .object members, mem_children_of_parts? hparts (by simp), m.2, ?_, rfl, hf⟩
          rw [Raw.keyed?_eq_some.mp hnamed, Raw.children, List.map_map]
          exact List.mem_map_of_mem (f := (·.2)) hm

/-- The block below is read from the tree one level below. -/
theorem next_of_ofRaw? (h : ofRaw? depth r = some b) :
    ∀ c ∈ b.next, ∃ d, ∃ s ∈ r.children, depth = d + 1 ∧ ofRaw? d s = some c := by
  intro c hc
  cases depth with
  | zero => cases h
  | succ depth =>
    obtain ⟨id, kind, fields, next, hparts, -, -, -, hnext⟩ := ofRaw?_eq_some.mp h
    rw [Option.mem_def.mp hc] at hnext
    obtain ⟨value, rfl⟩ : ∃ value, next = some value := by
      cases next with
      | none => cases hnext
      | some value => exact ⟨value, rfl⟩
    refine ⟨depth, value, mem_children_of_parts? hparts (by simp), rfl, ?_⟩
    cases value with
    | null => cases hnext
    | bool b | number n | string s | array items | object members =>
      obtain ⟨found, hfound, heq⟩ := Option.map_eq_some_iff.mp hnext
      cases heq
      exact hfound

/-- The empty list is read as a block that has nothing. -/
theorem ofRaw?_array_nil : ofRaw? (depth + 1) (.array []) = some ⟨none, "", [], none⟩ := by
  rw [ofRaw?]
  rfl

/-- Blocks that are read are proper if what they hold as it is satisfies `P`. -/
theorem proper_of_ofRaw? {Q : Raw → Prop} (hnumber : ∀ n : Json.Number, Q (.number n) → n.ReadsBack)
    (hother : ∀ d v j, v.Everywhere Q → Field.ofRaw? d (ofRaw? d) v = some (.other j) → P j)
    (hr : r.Everywhere Q) (h : ofRaw? depth r = some b) : b.Proper P := by
  induction depth using Nat.strong_induction_on generalizing r b with
  | _ depth ih =>
    obtain ⟨id, kind, fields, next⟩ := b
    obtain ⟨hsorted, hfields⟩ := fields_of_ofRaw? h
    have hnext := next_of_ofRaw? h
    refine ⟨hsorted, properFields_iff.mpr fun e he => ?_, ?_⟩
    · obtain ⟨d, s, hs, v, hv, rfl, hread⟩ := hfields e he
      have hv := (hr.child hs).child hv
      obtain ⟨name, f⟩ := e
      cases Field.ofRaw?_eq_some.mp hread with
      | number n => exact hnumber n hv.here
      | text s => trivial
      | block _ _ hblock => exact ih d (by omega) hv hblock
      | @blocks items j bs hkept hunread hblocks =>
        refine ⟨?_, properBlocks_iff.mpr fun c hc => ?_⟩
        · rintro rfl
          cases mapM_eq_some_iff.mp hblocks
          cases d with
          | zero => cases hkept
          | succ d =>
            rw [ofRaw?_array_nil] at hunread
            cases hunread
        · obtain ⟨item, hitem, hc⟩ := exists_of_forall₂_right (mapM_eq_some_iff.mp hblocks) hc
          exact ih d (by omega) (hv.child hitem) hc
      | other => exact hother d v _ hv hread
    · cases next with
      | none => trivial
      | some c =>
        obtain ⟨d, s, hs, rfl, hread⟩ := hnext c rfl
        exact ih d (by omega) (hr.child hs) hread

/-- What the fields of a block hold as it is was kept, if the numbers read back. -/
theorem held_of_ofRaw? (hr : r.Everywhere NumberReadsBack) (h : ofRaw? depth r = some b) :
    b.Proper Held :=
  proper_of_ofRaw? (fun _ hn => hn) (fun _ _ _ hv hj => Json.held_of_ofRaw? hj hv) hr h

/-- What the fields of a block hold as it is is settled, if no key of blocks is there twice. -/
theorem settled_of_ofRaw? (hr : r.Everywhere Tidy) (h : ofRaw? depth r = some b) :
    b.Proper Json.Settled :=
  proper_of_ofRaw? (fun _ hn => hn.number) (fun _ _ _ hv hj => Json.settled_of_ofRaw? hj hv) hr h

end Block

/-! ### How deep they nest -/

/-- The tree is read with `depth` levels, and these or the tree itself are no more than `n`. -/
def Json.Raw.Within (depth n : Nat) (r : Raw) : Prop := depth ≤ n ∨ (r.keep? n).isSome = true

theorem Json.Raw.Within.child (h : r.Within (depth + 1) n) (hs : s ∈ r.children) :
    ∃ m, n = m + 1 ∧ s.Within depth m := by
  rcases h with h | h
  · exact ⟨n - 1, by omega, .inl (by omega)⟩
  · obtain ⟨m, rfl, hkeep⟩ := isSome_keep?_child h hs
    exact ⟨m, rfl, .inr hkeep⟩

namespace Block

/-- What can be read as a block has at least one level. -/
theorem pos_of_within (h : ofRaw? depth r = some b) (hwithin : r.Within depth n) :
    ∃ m, n = m + 1 := by
  cases depth with
  | zero => cases h
  | succ depth =>
    obtain ⟨id, kind, fields, next, hparts, -⟩ := ofRaw?_eq_some.mp h
    have hform := (hasPart_of_parts? hparts).1
    rcases hwithin with hle | hkeep
    · exact ⟨n - 1, by omega⟩
    · cases n with
      | succ m => exact ⟨m, rfl⟩
      | zero =>
        cases r with
        | null | bool b | number n | string s => exact hform.elim
        | array items | object members => cases hkeep

/-- The content of a field nests no deeper than the tree it is read from, if blocks do not. -/
theorem nesting_of_readAs {readBlock : Raw → Option Block}
    (hblock : ∀ s c i, s.Everywhere NumberReadsBack → (s.keep? i).isSome = true →
      readBlock s = some c → c.toJson.nesting ≤ i)
    (hv : v.Everywhere NumberReadsBack) (hkept : (v.keep? n).isSome = true)
    (h : Field.ReadAs depth readBlock v f) : (fieldToJson f).nesting ≤ n := by
  cases h with
  | number m | text s => exact Nat.zero_le n
  | block _ _ hread => exact hblock v _ n hv hkept hread
  | @blocks items j bs _ _ hread =>
    cases n with
    | zero => cases hkept
    | succ n =>
      rw [fieldToJson, nesting, Nat.succ_le_succ_iff, Json.itemsNesting_le, blocksToJson_eq]
      refine List.forall_mem_map.mpr fun c hc => ?_
      obtain ⟨item, hitem, hc⟩ := exists_of_forall₂_right (mapM_eq_some_iff.mp hread) hc
      exact hblock item c n (hv.child hitem) (Raw.isSome_keep?_array.mp hkept item hitem) hc
  | other hkeep => exact Raw.nesting_of_keep? hkeep hkept hv

/-- A block nests no deeper than the tree it is read from may. -/
theorem nesting_of_ofRaw? (hr : r.Everywhere NumberReadsBack) (hwithin : r.Within depth n)
    (h : ofRaw? depth r = some b) : b.toJson.nesting ≤ n := by
  induction depth using Nat.strong_induction_on generalizing r b n with
  | _ depth ih =>
    obtain ⟨m, rfl⟩ := pos_of_within h hwithin
    obtain ⟨id, kind, fields, next⟩ := b
    obtain ⟨-, hfields⟩ := fields_of_ofRaw? h
    have hnext := next_of_ofRaw? h
    refine nesting_toJson_le.mpr ⟨fun hne => ?_, fun c hc => ?_⟩
    · have hfield (e : String × Field Block) (he : e ∈ fields) :
          ∃ k, m = k + 1 ∧ (fieldToJson e.2).nesting ≤ k := by
        obtain ⟨d, s, hs, v, hv, rfl, hread⟩ := hfields e he
        obtain ⟨m', hm', hlevel⟩ := hwithin.child hs
        obtain rfl : m = m' := by omega
        obtain ⟨k, rfl, hbelow⟩ := hlevel.child hv
        -- A field is kept within the levels that it is read with.
        have hkept : (v.keep? k).isSome = true := by
          rcases hbelow with hle | hkept
          · refine isSome_keep?_mono ?_ hle
            rw [← Field.isSome_ofRaw?, hread]
            rfl
          · exact hkept
        refine ⟨k, rfl, nesting_of_readAs ?_ ((hr.child hs).child hv) hkept
          (Field.ofRaw?_eq_some.mp hread)⟩
        intro s c i hs hkept hc
        exact ih d (by omega) hs (.inr hkept) hc
      obtain ⟨e, he⟩ := List.exists_mem_of_ne_nil fields hne
      obtain ⟨k, rfl, -⟩ := hfield e he
      rw [Nat.succ_le_succ_iff, Json.membersNesting_le, fieldsToJson_eq]
      refine List.forall_mem_map.mpr fun e he => ?_
      obtain ⟨k', hk', hnested⟩ := hfield e he
      obtain rfl : k = k' := by omega
      exact hnested
    · obtain ⟨d, s, hs, rfl, hread⟩ := hnext c hc
      obtain ⟨m', hm', hbelow⟩ := hwithin.child hs
      obtain rfl : m = m' := by omega
      exact ih d (by omega) (hr.child hs) hbelow hread

end Block

/-! ### Reading what is written -/

namespace Block

/-- A block is written as an object of different keys, with the parts of a block under them. -/
theorem toJson_eq_object (id : Option String) (kind : String) (fields : List (String × Field Block))
    (next : Option Block) :
    ∃ members, (toJson ⟨id, kind, fields, next⟩) = .object members ∧
      (members.map (·.1)).Nodup ∧ ∀ m ∈ members,
        (m.1 = "id" ∧ ∃ s, m.2 = .string s) ∨ (m.1 = "type" ∧ ∃ s, m.2 = .string s) ∨
        (m.1 = "fields" ∧ m.2 = .object (fieldsToJson fields)) ∨
        (m.1 = "next" ∧ ∃ c ∈ next, m.2 = c.toJson) := by
  cases id <;> cases fields <;> cases next <;>
    exact ⟨_, rfl, by simp [nextToJson], by simp [nextToJson]⟩

/-- What is written for a block has the shape of a block. -/
theorem isBlock_toJson (b : Block) : b.toJson.toRaw.IsBlock := by
  obtain ⟨id, kind, fields, next⟩ := b
  have hnext : ∀ c ∈ next, c.toJson.toRaw.IsBlock := by
    cases next with
    | none =>
      intro c hc
      cases hc
    | some c =>
      rintro c' ⟨⟩
      exact isBlock_toJson c
  obtain ⟨members, heq, -, hmembers⟩ := toJson_eq_object id kind fields next
  rw [heq, Json.toRaw, Json.membersToRaw_eq]
  refine .intro trivial fun key value hvalue => ?_
  obtain ⟨⟨name, j⟩, hm, hpair⟩ := List.mem_map.mp hvalue
  cases hpair
  rcases hmembers _ hm with ⟨hkey, s, hj⟩ | ⟨hkey, s, hj⟩ | ⟨hkey, hj⟩ | ⟨hkey, c, hc, hj⟩
  · subst hkey hj
    exact .id s
  · subst hkey hj
    exact .kind s
  · subst hkey hj
    exact .fields _
  · subst hkey hj
    exact .next (hnext c hc)

end Block

mutual

/-- What is written for a proper block repeats no key. -/
theorem tidy_toJson (hP : ∀ j, P j → j.toRaw.Everywhere Raw.Tidy) :
    ∀ b : Block, b.Proper P → b.toJson.toRaw.Everywhere Raw.Tidy
  | ⟨id, kind, fields, next⟩, ⟨hsorted, hfields, hnext⟩ => by
    have hvalues := tidy_fieldsToJson hP fields hfields
    have hbelow := tidy_nextToJson hP next hnext
    obtain ⟨members, heq, hnodup, hmembers⟩ := Block.toJson_eq_object id kind fields next
    rw [heq, Json.toRaw]
    refine everywhere_iff.mpr ⟨Raw.tidy_of_nodup hnodup, ?_⟩
    rw [Json.membersToRaw_eq, Raw.children, List.map_map]
    refine List.forall_mem_map.mpr fun m hm => ?_
    dsimp only [Function.comp_apply]
    rcases hmembers m hm with ⟨-, s, hj⟩ | ⟨-, s, hj⟩ | ⟨-, hj⟩ | ⟨-, c, hc, hj⟩
    · rw [hj]
      exact everywhere_of_leaf ⟨trivial, trivial⟩ rfl
    · rw [hj]
      exact everywhere_of_leaf ⟨trivial, trivial⟩ rfl
    · have hkeys : (fieldsToJson fields).map (·.1) = fields.map (·.1) := by
        rw [fieldsToJson_eq, List.map_map]
        rfl
      rw [hj, Json.toRaw]
      refine everywhere_iff.mpr ⟨Raw.tidy_of_nodup (hkeys ▸ nodup_of_sorted hsorted), ?_⟩
      rw [Json.membersToRaw_eq, fieldsToJson_eq, Raw.children, List.map_map, List.map_map]
      exact List.forall_mem_map.mpr hvalues
    · rw [hj]
      exact hbelow c hc

theorem tidy_nextToJson (hP : ∀ j, P j → j.toRaw.Everywhere Raw.Tidy) :
    ∀ next : Option Block, ProperNext P next → ∀ b ∈ next, b.toJson.toRaw.Everywhere Raw.Tidy
  | none, _, _, hb => nomatch hb
  | some b, hb, c, hc => by
    cases hc
    exact tidy_toJson hP b hb

theorem tidy_fieldsToJson (hP : ∀ j, P j → j.toRaw.Everywhere Raw.Tidy) :
    ∀ fields : List (String × Field Block), ProperFields P fields →
      ∀ e ∈ fields, (fieldToJson e.2).toRaw.Everywhere Raw.Tidy
  | [], _ => nofun
  | (_, f) :: fields, ⟨hf, hfields⟩ => by
    have hfirst := tidy_fieldToJson hP f hf
    have hrest := tidy_fieldsToJson hP fields hfields
    exact List.forall_mem_cons.mpr ⟨hfirst, hrest⟩

theorem tidy_fieldToJson (hP : ∀ j, P j → j.toRaw.Everywhere Raw.Tidy) :
    ∀ f : Field Block, ProperField P f → (fieldToJson f).toRaw.Everywhere Raw.Tidy
  | .number n, hn => everywhere_of_leaf ⟨hn, trivial⟩ rfl
  | .text s, _ => everywhere_of_leaf ⟨trivial, trivial⟩ rfl
  | .block b, hb => tidy_toJson hP b hb
  | .blocks bs, ⟨_, hbs⟩ => by
    rw [fieldToJson, Json.toRaw, Json.itemsToRaw_eq, blocksToJson_eq, List.map_map]
    exact everywhere_iff.mpr ⟨⟨trivial, trivial⟩, List.forall_mem_map.mpr (tidy_blocks hP bs hbs)⟩
  | .other j, hj => hP j hj

theorem tidy_blocks (hP : ∀ j, P j → j.toRaw.Everywhere Raw.Tidy) :
    ∀ bs : List Block, ProperBlocks P bs → ∀ b ∈ bs, b.toJson.toRaw.Everywhere Raw.Tidy
  | [], _ => nofun
  | b :: bs, ⟨hb, hbs⟩ => by
    have hfirst := tidy_toJson hP b hb
    have hrest := tidy_blocks hP bs hbs
    exact List.forall_mem_cons.mpr ⟨hfirst, hrest⟩

end

/-- A proper block is read again, as some block, if it does not nest too deep. -/
theorem Block.isSome_ofRaw?_toJson (hb : b.Proper Held) (hdeep : b.toJson.nesting ≤ depth) :
    (ofRaw? depth b.toJson.toRaw).isSome = true := by
  have hkeep := (Json.isSome_keep?_toRaw b.toJson depth).mpr hdeep
  have htidy := tidy_toJson (fun j hj => hj.kept.tidy) b hb
  exact (isSome_ofRaw? hkeep (htidy.imp fun _ hs => hs.once)).mpr b.isBlock_toJson

end TablePipeline
