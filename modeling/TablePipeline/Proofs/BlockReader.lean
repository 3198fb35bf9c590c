import TablePipeline.Proofs.BlockShape
/-!
# What the reader of blocks does

A field is read as one of five things (`Field.ReadAs`), a block part by part
(`Block.ofRaw?_eq_some`). Where no object has a key of blocks twice, the trees that are read as
blocks are those that have the shape of one (`Block.isSome_ofRaw?`). A value is `Json.Settled` if it
is held as it is and has no such shape: then it is read back as it is.
-/

namespace TablePipeline

open Json (Raw)
open Json.Raw (blockKeys KeysOnce isPart_id_iff isPart_type_iff isPart_fields_iff isPart_next_iff
  isBlock_iff isSome_keep?_child isSome_keep?_mono hasPart_of_parts? exists_parts? toRaw_of_keep?
  keep?_array_eq_some keep?_object_eq_some)
open Outcome (isSome_mapM_iff)

variable {r s value : Raw} {depth : Nat}

/-! ### Reading fields -/

/-- The value is neither a number nor a text. -/
structure Json.Compound (j : Json) : Prop where
  not_number : ∀ n, j ≠ .number n
  not_string : ∀ s, j ≠ .string s

/-- The tree is read as the content of a field. -/
inductive Field.ReadAs (depth : Nat) (readBlock : Raw → Option Block) : Raw → Field Block → Prop
  | number (n : Json.Number) : ReadAs depth readBlock (.number n) (.number n)
  | text (s : String) : ReadAs depth readBlock (.string s) (.text s)
  | block {r : Raw} {j : Json} {b : Block} (kept : r.keep? depth = some j) (compound : j.Compound)
      (read : readBlock r = some b) : ReadAs depth readBlock r (.block b)
  | blocks {items : List Raw} {j : Json} {bs : List Block}
      (kept : (Raw.array items).keep? depth = some j) (unread : readBlock (.array items) = none)
      (read : items.mapM readBlock = some bs) : ReadAs depth readBlock (.array items) (.blocks bs)
  | other {r : Raw} {j : Json} (kept : r.keep? depth = some j) (compound : j.Compound)
      (unread : readBlock r = none)
      (unlisted : ∀ items, r = .array items → items.mapM readBlock = none) :
      ReadAs depth readBlock r (.other j)

namespace Field

variable {readBlock : Raw → Option Block} {f : Field Block} {j : Json}

theorem compound_of_keep?_array {items : List Raw} (h : (Raw.array items).keep? depth = some j) :
    j.Compound := by
  cases depth with
  | zero => cases h
  | succ depth =>
    obtain ⟨js, -, rfl⟩ := keep?_array_eq_some.mp h
    exact ⟨nofun, nofun⟩

theorem compound_of_keep?_object {members : List (Option String × Raw)}
    (h : (Raw.object members).keep? depth = some j) : j.Compound := by
  cases depth with
  | zero => cases h
  | succ depth =>
    obtain ⟨kept, -, rfl⟩ := keep?_object_eq_some.mp h
    exact ⟨nofun, nofun⟩

/-- What is no array is read as a block or held as it is. -/
theorem ofRaw?_of_compound (hj : j.Compound) : r.keep? depth = some j →
    Field.ofRaw? depth readBlock r =
      match readBlock r with
      | some b => some (.block b)
      | none =>
        match r with
        | .array items =>
          match items.mapM readBlock with
          | some bs => some (.blocks bs)
          | none => some (.other j)
        | _ => some (.other j) := by
  intro h
  rw [Field.ofRaw?, h]
  cases j with
  | number n => exact absurd rfl (hj.not_number n)
  | string s => exact absurd rfl (hj.not_string s)
  | null | bool b | array items | object members => rfl

theorem ofRaw?_eq_some : Field.ofRaw? depth readBlock r = some f ↔ ReadAs depth readBlock r f := by
  constructor
  · intro h
    have hkept : ∃ j, r.keep? depth = some j := by
      obtain ⟨j, hj, -⟩ := Option.bind_eq_some_iff.mp h
      exact ⟨j, hj⟩
    obtain ⟨j, hj⟩ := hkept
    by_cases hcompound : j.Compound
    · rw [ofRaw?_of_compound hcompound hj] at h
      split at h
      · next b hblock =>
        cases h
        exact .block hj hcompound hblock
      · next hblock =>
        split at h
        · next items =>
          split at h
          · next bs hblocks =>
            cases h
            exact .blocks hj hblock hblocks
          · next hblocks =>
            cases h
            refine .other hj hcompound hblock fun items' heq => ?_
            cases heq
            exact hblocks
        · next hitems =>
          cases h
          exact .other hj hcompound hblock fun items heq => (hitems items heq).elim
    · rcases toRaw_of_keep? hj with heq | ⟨items, rfl⟩ | ⟨members, rfl⟩
      · subst heq
        rw [Field.ofRaw?, hj] at h
        cases j with
        | number n =>
          cases h
          exact .number n
        | string s =>
          cases h
          exact .text s
        | null | bool b | array items | object members => exact absurd ⟨nofun, nofun⟩ hcompound
      · exact absurd (compound_of_keep?_array hj) hcompound
      · exact absurd (compound_of_keep?_object hj) hcompound
  · intro h
    cases h with
    | number n | text s => rw [Field.ofRaw?, Raw.keep?]; rfl
    | block kept compound read => rw [ofRaw?_of_compound compound kept, read]
    | blocks kept unread read =>
      rw [ofRaw?_of_compound (compound_of_keep?_array kept) kept, unread]
      simp only [read]
    | other kept compound unread unlisted =>
      rw [ofRaw?_of_compound compound kept, unread]
      cases r with
      | array items => simp only [unlisted items rfl]
      | null | bool b | number n | string s | object members => rfl

theorem isSome_ofRaw? (readBlock : Raw → Option Block) :
    (Field.ofRaw? depth readBlock r).isSome = (r.keep? depth).isSome := by
  rw [Field.ofRaw?]
  cases r.keep? depth with
  | none => rfl
  | some j =>
    simp only [Option.bind_eq_bind, Option.bind_some, Option.pure_def]
    repeat' split
    all_goals rfl

end Field

/-! ### Reading blocks -/

namespace Block

/-- The name in the part of a block that holds it. -/
def idOfPart? : Option Raw → Option (Option String)
  | none => some none
  | some r => r.optionalText?

def kindOfPart? : Option Raw → Option String
  | none => some ""
  | some r => r.text?

def fieldsOfPart? (depth : Nat) : Option Raw → Option (List (String × Field Block))
  | none => some []
  | some r =>
    match depth with
    | 0 => none
    | inner + 1 => fieldsOfRaw? (Field.ofRaw? inner (ofRaw? inner)) r

def nextOfPart? (depth : Nat) : Option Raw → Option (Option Block)
  | none => some none
  | some .null => some none
  | some r => (ofRaw? depth r).map some

theorem ofRaw?_succ : ofRaw? (depth + 1) r = (do
    match ← r.parts? blockKeys with
    | [id, kind, fields, next] =>
      let id ← idOfPart? id
      let kind ← kindOfPart? kind
      let fields ← fieldsOfPart? depth fields
      let next ← nextOfPart? depth next
      return { id, kind, fields, next }
    | _ => none) := by
  rw [ofRaw?]
  refine congrArg (Option.bind (r.parts? blockKeys)) (funext fun parts => ?_)
  obtain _ | ⟨id, _ | ⟨kind, _ | ⟨fields, _ | ⟨next, _ | ⟨more, rest⟩⟩⟩⟩⟩ := parts
  case cons.cons.cons.cons.nil =>
    cases id <;> cases kind <;> cases fields <;> cases depth <;>
      rcases next with _ | _ | _ | _ | _ | _ | _ <;> rfl
  all_goals rfl

/-- A block is read part by part. -/
theorem ofRaw?_eq_some {b : Block} :
    ofRaw? (depth + 1) r = some b ↔ ∃ id kind fields next,
      r.parts? blockKeys = some [id, kind, fields, next] ∧ idOfPart? id = some b.id ∧
        kindOfPart? kind = some b.kind ∧ fieldsOfPart? depth fields = some b.fields ∧
        nextOfPart? depth next = some b.next := by
  rw [ofRaw?_succ]
  constructor
  · intro h
    obtain ⟨parts, hparts, h⟩ := Option.bind_eq_some_iff.mp h
    split at h
    · next id kind fields next =>
      obtain ⟨readId, hid, h⟩ := Option.bind_eq_some_iff.mp h
      obtain ⟨readKind, hkind, h⟩ := Option.bind_eq_some_iff.mp h
      obtain ⟨readFields, hfields, h⟩ := Option.bind_eq_some_iff.mp h
      obtain ⟨readNext, hnext, h⟩ := Option.bind_eq_some_iff.mp h
      cases h
      exact ⟨id, kind, fields, next, hparts, hid, hkind, hfields, hnext⟩
    · cases h
  · rintro ⟨id, kind, fields, next, hparts, hid, hkind, hfields, hnext⟩
    obtain ⟨readId, readKind, readFields, readNext⟩ := b
    simp [hparts, hid, hkind, hfields, hnext]

theorem isSome_ofRaw?_iff :
    (ofRaw? (depth + 1) r).isSome = true ↔ ∃ id kind fields next,
      r.parts? blockKeys = some [id, kind, fields, next] ∧ (idOfPart? id).isSome = true ∧
        (kindOfPart? kind).isSome = true ∧ (fieldsOfPart? depth fields).isSome = true ∧
        (nextOfPart? depth next).isSome = true := by
  simp only [Option.isSome_iff_exists, ofRaw?_eq_some]
  constructor
  · rintro ⟨b, id, kind, fields, next, hparts, hid, hkind, hfields, hnext⟩
    exact ⟨id, kind, fields, next, hparts, ⟨_, hid⟩, ⟨_, hkind⟩, ⟨_, hfields⟩, _, hnext⟩
  · rintro ⟨id, kind, fields, next, hparts, ⟨i, hid⟩, ⟨k, hkind⟩, ⟨f, hfields⟩, n, hnext⟩
    exact ⟨⟨i, k, f, n⟩, id, kind, fields, next, hparts, hid, hkind, hfields, hnext⟩

/-- All fields of an object that is kept can be read. -/
theorem isSome_fieldsOfPart? (hkeep : (value.keep? depth).isSome = true) :
    (fieldsOfPart? depth (some value)).isSome = true ↔ ∃ members, value = .object members := by
  constructor
  · intro h
    cases value with
    | object members => exact ⟨members, rfl⟩
    | null | bool b | number n | string s | array items => cases depth <;> cases h
  · rintro ⟨members, rfl⟩
    cases depth with
    | zero => cases hkeep
    | succ depth =>
      obtain ⟨named, hnamed⟩ := Option.isSome_iff_exists.mp (Json.Raw.isSome_keyed? hkeep)
      have hfields : (named.mapM fun (m : String × Raw) => do
          return (m.1, ← Field.ofRaw? depth (ofRaw? depth) m.2)).isSome = true := by
        refine Outcome.isSome_mapM_iff.mpr fun m hm => ?_
        have hchild : m.2 ∈ (Raw.object members).children := by
          rw [Json.Raw.keyed?_eq_some.mp hnamed, Json.Raw.children, List.map_map]
          exact List.mem_map_of_mem (f := (·.2)) hm
        obtain ⟨d, hd, hvalue⟩ := isSome_keep?_child hkeep hchild
        obtain rfl := Nat.succ.inj hd
        rw [Json.isSome_bind fun _ => rfl, Field.isSome_ofRaw?]
        exact hvalue
      rw [fieldsOfPart?, fieldsOfRaw?, hnamed]
      dsimp only [Option.bind_eq_bind, Option.bind_some]
      rw [← Option.bind_eq_bind, Json.isSome_bind fun _ => rfl]
      exact hfields

/-- Where no key of blocks is there twice, what is read as a block is what has the shape of one. -/
theorem isSome_ofRaw? (hkeep : (r.keep? depth).isSome = true) (honce : r.Everywhere KeysOnce) :
    (ofRaw? depth r).isSome = true ↔ r.IsBlock := by
  induction depth generalizing r with
  | zero =>
    refine iff_of_false Bool.false_ne_true fun h => ?_
    cases r with
    | null | bool b | number n | string s => exact (isBlock_iff.mp h).1
    | array items | object members => cases hkeep
  | succ depth ih =>
    have hpart (key : String) (value : Raw) (h : r.HasPart key value) :
        (value.keep? depth).isSome = true ∧
          ((ofRaw? depth value).isSome = true ↔ value.IsBlock) := by
      obtain ⟨d, hd, hvalue⟩ := isSome_keep?_child hkeep h.child
      obtain rfl := Nat.succ.inj hd
      exact ⟨hvalue, ih hvalue (honce.child h.child)⟩
    have hnext (value : Raw) (h : r.HasPart "next" value) :
        (nextOfPart? depth (some value)).isSome = true ↔ Json.Raw.IsPart "next" value := by
      rw [isPart_next_iff, ← (hpart "next" value h).2]
      cases value with
      | null => exact iff_of_true rfl (.inl rfl)
      | bool b | number n | string s | array items | object members =>
        simp [nextOfPart?]
    rw [isSome_ofRaw?_iff, isBlock_iff]
    constructor
    · rintro ⟨id, kind, fields, next, hparts, hid, hkind, hfields, hbelow⟩
      obtain ⟨hform, hall⟩ := hasPart_of_parts? hparts
      simp only [blockKeys, List.forall₂_cons, List.forall₂_nil_left_iff, and_true] at hall
      obtain ⟨hasId, hasKind, hasFields, hasNext⟩ := hall
      refine ⟨hform, fun key value h => ?_⟩
      by_cases hkey : key ∈ blockKeys
      · simp only [blockKeys, List.mem_cons, List.not_mem_nil, or_false] at hkey
        rcases hkey with rfl | rfl | rfl | rfl
        · rw [(hasId value).mp h] at hid
          exact isPart_id_iff.mpr hid
        · rw [(hasKind value).mp h] at hkind
          exact isPart_type_iff.mpr hkind
        · rw [(hasFields value).mp h, isSome_fieldsOfPart? (hpart _ _ h).1] at hfields
          exact isPart_fields_iff.mpr hfields
        · rw [(hasNext value).mp h] at hbelow
          exact (hnext value h).mp hbelow
      · exact .unknown hkey
    · rintro ⟨hform, hfits⟩
      obtain ⟨id, kind, fields, next, hparts⟩ := exists_parts? hkeep honce.here hform
      obtain ⟨-, hall⟩ := hasPart_of_parts? hparts
      simp only [blockKeys, List.forall₂_cons, List.forall₂_nil_left_iff, and_true] at hall
      obtain ⟨hasId, hasKind, hasFields, hasNext⟩ := hall
      refine ⟨id, kind, fields, next, hparts, ?_, ?_, ?_, ?_⟩
      · cases id with
        | none => rfl
        | some value => exact isPart_id_iff.mp (hfits _ _ ((hasId value).mpr rfl))
      · cases kind with
        | none => rfl
        | some value => exact isPart_type_iff.mp (hfits _ _ ((hasKind value).mpr rfl))
      · cases fields with
        | none => rfl
        | some value =>
          have h := (hasFields value).mpr rfl
          exact (isSome_fieldsOfPart? (hpart _ _ h).1).mpr (isPart_fields_iff.mp (hfits _ _ h))
      · cases next with
        | none => rfl
        | some value =>
          have h := (hasNext value).mpr rfl
          exact (hnext value h).mpr (hfits _ _ h)

end Block

/-! ### Values that fields hold as they are -/

namespace Json

/-- Where no key of blocks is there twice, these are the trees that are read as blocks or as lists
of blocks. -/
theorem Raw.plugs_iff (hkeep : (r.keep? depth).isSome = true) (honce : r.Everywhere KeysOnce) :
    r.Plugs ↔ (Block.ofRaw? depth r).isSome = true ∨
      ∃ items, r = .array items ∧ (items.mapM (Block.ofRaw? depth)).isSome = true := by
  refine or_congr (Block.isSome_ofRaw? hkeep honce).symm (exists_congr fun items => ?_)
  refine and_congr_right fun heq => ?_
  subst heq
  rw [isSome_mapM_iff]
  refine forall₂_congr fun item hitem => ?_
  -- An item is kept with one level less, and so it is kept here.
  obtain ⟨d, rfl, hless⟩ := isSome_keep?_child hkeep hitem
  exact (Block.isSome_ofRaw? (isSome_keep?_mono hless (Nat.le_succ d)) (honce.child hitem)).symm

/-- A field that is read may hold the value as it is. -/
structure Held (j : Json) : Prop where
  kept : j.Kept
  compound : j.Compound

/-- The value is held as it is and is not what a block or a list of blocks is written as. -/
structure Settled (j : Json) : Prop where
  held : j.Held
  unplugged : ¬ j.toRaw.Plugs

/-- What is settled is read back as it is. -/
theorem Settled.ofRaw? {j : Json} (hj : j.Settled) (hdeep : j.nesting ≤ depth) :
    Field.ofRaw? depth (Block.ofRaw? depth) j.toRaw = some (.other j) := by
  obtain ⟨⟨hkept, hcompound⟩, hplugs⟩ := hj
  have hkeep := hkept.again depth hdeep
  have hisSome : (j.toRaw.keep? depth).isSome = true := by rw [hkeep]; rfl
  have honce := hkept.tidy.imp fun _ htidy => htidy.once
  rw [Raw.plugs_iff hisSome honce, not_or, Option.not_isSome_iff_eq_none] at hplugs
  obtain ⟨hblock, hblocks⟩ := hplugs
  refine Field.ofRaw?_eq_some.mpr (.other hkeep hcompound hblock fun items heq => ?_)
  rw [← Option.not_isSome_iff_eq_none]
  exact fun hread => hblocks ⟨items, heq, hread⟩

section Reading

variable {j : Json}

/-- What a field that is read holds as it is was kept. -/
theorem held_of_ofRaw? {readBlock : Raw → Option Block}
    (h : Field.ofRaw? depth readBlock r = some (.other j))
    (hnumbers : r.Everywhere Raw.NumberReadsBack) : j.Held := by
  cases Field.ofRaw?_eq_some.mp h with
  | other kept compound => exact ⟨(Raw.kept_of_keep? depth r j kept hnumbers).2, compound⟩

/-- What a field holds as it is has no shape of blocks if no key of blocks is there twice. -/
theorem settled_of_ofRaw? (h : Field.ofRaw? depth (Block.ofRaw? depth) r = some (.other j))
    (htidy : r.Everywhere Raw.Tidy) : j.Settled := by
  have honce := htidy.imp fun _ hs => hs.once
  refine ⟨held_of_ofRaw? h (htidy.imp fun _ hs => hs.number), fun hplugs => ?_⟩
  cases Field.ofRaw?_eq_some.mp h with
  | other kept compound unread unlisted =>
    have hisSome : (r.keep? depth).isSome = true := by rw [kept]; rfl
    rcases (Raw.plugs_iff hisSome honce).mp (Raw.plugs_of_keep? kept honce hplugs) with
      hread | ⟨items, heq, hread⟩
    · rw [unread] at hread
      cases hread
    · rw [unlisted items heq] at hread
      cases hread

end Reading

end Json

end TablePipeline
