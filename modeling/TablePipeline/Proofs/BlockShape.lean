import TablePipeline.Proofs.Kept
import TablePipeline.Workspace.Reader
/-!
# The shape of a block

`Raw.IsBlock` says what a tree looks like that stands for a block, without reading it. Where no
object has a key of blocks twice, these are the trees that are read as blocks
(`Block.isSome_ofRaw?`), and a value that is kept has the shape of a block only if the tree it is
kept of has it (`Raw.isBlock_of_keep?`).
-/

namespace TablePipeline

open Json (Raw)
open Outcome (isSome_mapM_iff exists_of_forall₂_left exists_of_forall₂_right)

namespace Json.Raw

variable {r s value : Raw} {key : String} {depth : Nat} {members : List (Option String × Raw)}
  {items : List Raw} {named : List (String × Raw)}

/-- The tree is an object, or an array of no more items than there are keys of blocks. -/
def MayBeBlock : Raw → Prop
  | .object _ => True
  | .array items => items.length ≤ blockKeys.length
  | .null | .bool _ | .number _ | .string _ => False

/-- The value stands in the tree under the key, or in the place of the key. -/
def HasPart : Raw → String → Raw → Prop
  | .object members, key, value => (some key, value) ∈ members
  | .array items, key, value => (key, value) ∈ blockKeys.zip items
  | .null, _, _ | .bool _, _, _ | .number _, _, _ | .string _, _, _ => False

mutual

/-- The tree has the shape of a block. -/
inductive IsBlock : Raw → Prop
  | intro {r : Raw} (form : r.MayBeBlock)
      (parts : ∀ key value, r.HasPart key value → IsPart key value) : IsBlock r

/-- The tree is what a block may have under the key. -/
inductive IsPart : String → Raw → Prop
  | unknown {key : String} {value : Raw} (h : key ∉ blockKeys) : IsPart key value
  | noId : IsPart "id" .null
  | id (s : String) : IsPart "id" (.string s)
  | kind (s : String) : IsPart "type" (.string s)
  | fields (members : List (Option String × Raw)) : IsPart "fields" (.object members)
  | noNext : IsPart "next" .null
  | next {value : Raw} (h : IsBlock value) : IsPart "next" value

end

theorem isBlock_iff :
    r.IsBlock ↔ r.MayBeBlock ∧ ∀ key value, r.HasPart key value → IsPart key value :=
  ⟨fun ⟨form, parts⟩ => ⟨form, parts⟩, fun ⟨form, parts⟩ => ⟨form, parts⟩⟩

theorem isPart_iff :
    IsPart key value ↔ key ∉ blockKeys ∨
      key = "id" ∧ (value = .null ∨ ∃ s : String, value = .string s) ∨
      key = "type" ∧ (∃ s : String, value = .string s) ∨
      key = "fields" ∧ (∃ members, value = .object members) ∨
      key = "next" ∧ (value = .null ∨ value.IsBlock) := by
  constructor
  · rintro (h | _ | s | s | members | _ | h)
    · exact .inl h
    · exact .inr (.inl ⟨rfl, .inl rfl⟩)
    · exact .inr (.inl ⟨rfl, .inr ⟨s, rfl⟩⟩)
    · exact .inr (.inr (.inl ⟨rfl, s, rfl⟩))
    · exact .inr (.inr (.inr (.inl ⟨rfl, members, rfl⟩)))
    · exact .inr (.inr (.inr (.inr ⟨rfl, .inl rfl⟩)))
    · exact .inr (.inr (.inr (.inr ⟨rfl, .inr h⟩)))
  · rintro (h | ⟨rfl, rfl | ⟨s, rfl⟩⟩ | ⟨rfl, s, rfl⟩ | ⟨rfl, members, rfl⟩ | ⟨rfl, rfl | h⟩)
    · exact .unknown h
    · exact .noId
    · exact .id s
    · exact .kind s
    · exact .fields members
    · exact .noNext
    · exact .next h

theorem isPart_array_iff : IsPart key (.array items) ↔
    key ∉ blockKeys ∨ key = "next" ∧ (Raw.array items).IsBlock := by
  simp [isPart_iff]

theorem isPart_object_iff : IsPart key (.object members) ↔
    key ∉ blockKeys ∨ key = "fields" ∨ key = "next" ∧ (Raw.object members).IsBlock := by
  simp [isPart_iff]

theorem isPart_id_iff : IsPart "id" value ↔ value.optionalText?.isSome = true := by
  rw [isPart_iff]
  rcases value with _ | _ | _ | (_ | s) | _ | _ <;> simp [blockKeys, optionalText?]

theorem isPart_type_iff : IsPart "type" value ↔ value.text?.isSome = true := by
  rw [isPart_iff]
  rcases value with _ | _ | _ | (_ | s) | _ | _ <;> simp [blockKeys, text?]

theorem isPart_fields_iff : IsPart "fields" value ↔ ∃ members, value = .object members := by
  rw [isPart_iff]
  simp [blockKeys]

theorem isPart_next_iff : IsPart "next" value ↔ value = .null ∨ value.IsBlock := by
  rw [isPart_iff]
  simp [blockKeys]

/-! ### Parts -/

theorem HasPart.child (h : r.HasPart key value) : value ∈ r.children := by
  cases r with
  | object members => exact List.mem_map_of_mem h
  | array items => exact (List.of_mem_zip h).2
  | null | bool b | number n | string s => cases h

theorem keyed?_eq_some :
    keyed? members = some named ↔ members = named.map fun m => (some m.1, m.2) := by
  rw [keyed?, Outcome.mapM_eq_some_iff, ← List.forall₂_eq_eq_eq, List.forall₂_map_right_iff]
  refine iff_of_eq (congrArg (List.Forall₂ · members named) ?_)
  funext m k
  obtain ⟨_ | key, value⟩ := m
  · simp
  · simp [Prod.ext_iff, eq_comm]

theorem isSome_keyed? (h : ((Raw.object members).keep? depth).isSome = true) :
    (keyed? members).isSome = true := by
  cases depth with
  | zero => cases h
  | succ depth =>
    refine isSome_mapM_iff.mpr fun m hm => ?_
    rw [isSome_bind fun _ => rfl]
    exact (isSome_keep?_object.mp h m hm).1

/-- What stands under a key is the only value of the key. -/
theorem mem_iff_of_single? {part : Option Raw} (h : single? key named = some part) :
    (key, value) ∈ named ↔ part = some value := by
  have hmem : (key, value) ∈ named ↔ (key, value) ∈ named.filter (·.1 = key) := by simp
  rw [hmem]
  unfold single? at h
  split at h
  · next hnone =>
    cases h
    simp [hnone]
  · next k found hone =>
    cases h
    have hkey : k = key := by
      have hk : (k, found) ∈ named.filter (·.1 = key) := by simp [hone]
      simpa using (List.mem_filter.mp hk).2
    rw [hone, hkey]
    simp [eq_comm]
  · cases h

theorem isSome_single? (h : (named.filter (·.1 = key)).length ≤ 1) :
    (single? key named).isSome = true := by
  unfold single?
  split
  · rfl
  · rfl
  · next hnone hone =>
    rcases hfilter : named.filter (·.1 = key) with _ | ⟨m, _ | ⟨m', rest⟩⟩
    · exact absurd hfilter hnone
    · exact absurd hfilter (hone m.1 m.2)
    · rw [hfilter] at h
      simp at h

/-- The parts of a tree are trees right below it. -/
theorem mem_children_of_parts? {keys : List String} {parts : List (Option Raw)}
    (h : r.parts? keys = some parts) (hvalue : some value ∈ parts) : value ∈ r.children := by
  cases r with
  | null | bool b | number n | string s => cases h
  | object members =>
    obtain ⟨named, hnamed, h⟩ := Option.bind_eq_some_iff.mp h
    obtain ⟨key, -, hpart⟩ := exists_of_forall₂_right (Outcome.mapM_eq_some_iff.mp h) hvalue
    have hmem := (mem_iff_of_single? hpart).mpr rfl
    rw [keyed?_eq_some.mp hnamed, children, List.map_map]
    exact List.mem_map_of_mem (f := (·.2)) hmem
  | array items =>
    simp only [parts?] at h
    split at h
    · cases h
      simpa [children] using hvalue
    · cases h

theorem hasPart_of_parts? {parts : List (Option Raw)} (h : r.parts? blockKeys = some parts) :
    r.MayBeBlock ∧
      List.Forall₂ (fun key part => ∀ value, r.HasPart key value ↔ part = some value)
        blockKeys parts := by
  cases r with
  | null | bool b | number n | string s => cases h
  | object members =>
    obtain ⟨named, hnamed, h⟩ := Option.bind_eq_some_iff.mp h
    refine ⟨trivial, (Outcome.mapM_eq_some_iff.mp h).imp fun key part hpart value => ?_⟩
    rw [← mem_iff_of_single? hpart, HasPart, keyed?_eq_some.mp hnamed]
    simp
  | array items =>
    simp only [parts?] at h
    split at h
    · next hshort =>
      refine ⟨hshort, ?_⟩
      cases h
      rcases items with _ | ⟨a, _ | ⟨b, _ | ⟨c, _ | ⟨d, _ | ⟨e, rest⟩⟩⟩⟩⟩
      · simp [blockKeys, HasPart, List.replicate]
      · simp [blockKeys, HasPart, List.replicate, eq_comm]
      · simp [blockKeys, HasPart, List.replicate, eq_comm]
      · simp [blockKeys, HasPart, eq_comm]
      · simp [blockKeys, HasPart, eq_comm]
      · simp only [blockKeys, List.length_cons, List.length_nil] at hshort
        omega
    · cases h

/-- The parts of a tree that may be a block can be told apart if no key of blocks is there twice. -/
theorem exists_parts? (hkeep : (r.keep? depth).isSome = true) (honce : r.KeysOnce)
    (hform : r.MayBeBlock) :
    ∃ id kind fields next, r.parts? blockKeys = some [id, kind, fields, next] := by
  cases r with
  | null | bool b | number n | string s => cases hform
  | object members =>
    obtain ⟨named, hnamed⟩ := Option.isSome_iff_exists.mp (isSome_keyed? hkeep)
    have hsingle (key : String) (hkey : key ∈ blockKeys) : (single? key named).isSome = true := by
      refine isSome_single? ?_
      have hlength := honce key hkey
      rw [keyed?_eq_some.mp hnamed, List.filter_map, List.length_map] at hlength
      simpa [Function.comp_def] using hlength
    simp only [Option.isSome_iff_exists] at hsingle
    obtain ⟨id, hid⟩ := hsingle "id" (by decide)
    obtain ⟨kind, hkind⟩ := hsingle "type" (by decide)
    obtain ⟨fields, hfields⟩ := hsingle "fields" (by decide)
    obtain ⟨next, hnext⟩ := hsingle "next" (by decide)
    refine ⟨id, kind, fields, next, ?_⟩
    simp [parts?, hnamed, blockKeys, hid, hkind, hfields, hnext]
  | array items =>
    rcases items with _ | ⟨a, _ | ⟨b, _ | ⟨c, _ | ⟨d, _ | ⟨e, rest⟩⟩⟩⟩⟩
    · exact ⟨_, _, _, _, rfl⟩
    · exact ⟨_, _, _, _, rfl⟩
    · exact ⟨_, _, _, _, rfl⟩
    · exact ⟨_, _, _, _, rfl⟩
    · exact ⟨_, _, _, _, rfl⟩
    · simp only [MayBeBlock, blockKeys, List.length_cons, List.length_nil] at hform
      omega

/-! ### Keeping the shape -/

variable {j : Json}

theorem eq_of_filter_le_one {α : Type} {l : List α} {p : α → Bool} (h : (l.filter p).length ≤ 1)
    {a b : α} (ha : a ∈ l) (hpa : p a = true) (hb : b ∈ l) (hpb : p b = true) : a = b := by
  have ha' : a ∈ l.filter p := List.mem_filter.mpr ⟨ha, hpa⟩
  have hb' : b ∈ l.filter p := List.mem_filter.mpr ⟨hb, hpb⟩
  rcases hl : l.filter p with _ | ⟨c, _ | ⟨d, rest⟩⟩
  · rw [hl] at ha'
    cases ha'
  · rw [hl, List.mem_singleton] at ha' hb'
    rw [ha', hb']
  · rw [hl] at h
    simp at h

/-- A key that stands only once in an object keeps its value. -/
theorem exists_kept_part {kept : List (String × Json)}
    (hkept : List.Forall₂ (fun m k => keepMember? depth m = some k) members kept)
    (honce : (members.filter (·.1 = some key)).length ≤ 1) (hvalue : (some key, value) ∈ members) :
    ∃ v, value.keep? depth = some v ∧ (key, v) ∈ sortByName kept := by
  obtain ⟨⟨name, v⟩, hv, hkeep⟩ := exists_of_forall₂_left hkept hvalue
  obtain rfl : name = key := (Option.some.inj (keepMember?_eq_some.mp hkeep).1).symm
  -- The last binding of the key counts, which is the only one.
  obtain ⟨last, hlast⟩ := Option.isSome_iff_exists.mp
    (lookup_isSome_iff.mpr (List.mem_map_of_mem (f := (·.1)) (List.mem_reverse.mpr hv)))
  have hmem : (name, last) ∈ sortByName kept := by
    rw [← lookup_sortByName] at hlast
    obtain ⟨before, after, heq, -⟩ := List.lookup_eq_some_iff.mp hlast
    simp [heq]
  obtain ⟨⟨found, other⟩, hother, hfound⟩ :=
    exists_of_forall₂_right hkept (mem_of_mem_sortByName hmem)
  obtain ⟨hkey, hfound⟩ := keepMember?_eq_some.mp hfound
  obtain rfl : found = some name := hkey
  cases eq_of_filter_le_one honce hvalue (by simp) hother (by simp)
  exact ⟨last, hfound, hmem⟩

theorem mem_zip_of_forall₂ {α β γ : Type} {R : α → β → Prop} {as : List α} {bs : List β}
    (h : List.Forall₂ R as bs) {ks : List γ} {k : γ} {a : α} (ha : (k, a) ∈ ks.zip as) :
    ∃ b, R a b ∧ (k, b) ∈ ks.zip bs := by
  induction h generalizing ks with
  | nil => simp at ha
  | @cons a' b' as bs hr _ ih =>
    cases ks with
    | nil => simp at ha
    | cons k' ks =>
      rw [List.zip_cons_cons, List.mem_cons] at ha
      rcases ha with heq | ha
      · cases heq
        exact ⟨b', hr, List.mem_cons_self⟩
      · obtain ⟨b, hb, hmem⟩ := ih ha
        exact ⟨b, hb, List.mem_cons_of_mem _ hmem⟩

/-- What is neither an array nor an object is kept as it is. -/
theorem toRaw_of_keep? (h : r.keep? depth = some j) :
    j.toRaw = r ∨ (∃ items, r = .array items) ∨ ∃ members, r = .object members := by
  cases r with
  | null | bool b =>
    rw [keep?] at h
    cases h
    exact .inl rfl
  | number n | string s =>
    rw [keep?] at h
    obtain ⟨found, rfl, rfl⟩ := Option.map_eq_some_iff.mp h
    exact .inl rfl
  | array items => exact .inr (.inl ⟨items, rfl⟩)
  | object members => exact .inr (.inr ⟨members, rfl⟩)

/-- A part of a block is one already before it is kept. -/
theorem isPart_of_keep? (h : value.keep? depth = some j) (hblock : j.toRaw.IsBlock → value.IsBlock)
    (hpart : IsPart key j.toRaw) : IsPart key value := by
  rcases toRaw_of_keep? h with heq | ⟨items, rfl⟩ | ⟨members, rfl⟩
  · rwa [heq] at hpart
  · cases depth with
    | zero => cases h
    | succ depth =>
      obtain ⟨js, -, rfl⟩ := keep?_array_eq_some.mp h
      rw [toRaw, isPart_array_iff] at hpart
      exact isPart_array_iff.mpr (hpart.imp_right (And.imp_right hblock))
  · cases depth with
    | zero => cases h
    | succ depth =>
      obtain ⟨kept, -, rfl⟩ := keep?_object_eq_some.mp h
      rw [toRaw, isPart_object_iff] at hpart
      exact isPart_object_iff.mpr (hpart.imp_right (Or.imp_right (And.imp_right hblock)))

/-- A value that is kept has the shape of a block only if the tree it is kept of has it. -/
theorem isBlock_of_keep? (h : r.keep? depth = some j) (honce : r.Everywhere KeysOnce)
    (hblock : j.toRaw.IsBlock) : r.IsBlock := by
  induction depth generalizing r j with
  | zero =>
    rcases toRaw_of_keep? h with heq | ⟨items, rfl⟩ | ⟨members, rfl⟩
    · rwa [heq] at hblock
    · cases h
    · cases h
  | succ depth ih =>
    rcases toRaw_of_keep? h with heq | ⟨items, rfl⟩ | ⟨members, rfl⟩
    · rwa [heq] at hblock
    · obtain ⟨js, hjs, rfl⟩ := keep?_array_eq_some.mp h
      rw [toRaw, itemsToRaw_eq] at hblock
      obtain ⟨hform, hparts⟩ := isBlock_iff.mp hblock
      refine .intro ?_ fun key value hvalue => ?_
      · rwa [MayBeBlock, List.length_map, ← hjs.length_eq] at hform
      · obtain ⟨v, hv, hmem⟩ := mem_zip_of_forall₂ hjs hvalue
        refine isPart_of_keep? hv (ih hv (honce.child hvalue.child)) (hparts key _ ?_)
        rw [HasPart, List.zip_map_right]
        exact List.mem_map_of_mem (f := Prod.map id toRaw) hmem
    · obtain ⟨kept, hkept, rfl⟩ := keep?_object_eq_some.mp h
      rw [toRaw, membersToRaw_eq] at hblock
      refine .intro trivial fun key value hvalue => ?_
      by_cases hkey : key ∈ blockKeys
      · obtain ⟨v, hv, hmem⟩ := exists_kept_part hkept (honce.here key hkey) hvalue
        refine isPart_of_keep? hv (ih hv (honce.child hvalue.child)) ?_
        exact (isBlock_iff.mp hblock).2 key _ (List.mem_map_of_mem hmem)
      · exact .unknown hkey

/-- The tree has the shape of a block or of a list of blocks. -/
def Plugs (r : Raw) : Prop :=
  r.IsBlock ∨ ∃ items, r = .array items ∧ ∀ item ∈ items, item.IsBlock

theorem plugs_of_keep? (h : r.keep? depth = some j) (honce : r.Everywhere KeysOnce)
    (hplugs : j.toRaw.Plugs) : r.Plugs := by
  rcases hplugs with hblock | ⟨rs, heq, hall⟩
  · exact .inl (isBlock_of_keep? h honce hblock)
  · rcases toRaw_of_keep? h with hsame | ⟨items, rfl⟩ | ⟨members, rfl⟩
    · exact .inr ⟨rs, hsame ▸ heq, hall⟩
    · cases depth with
      | zero => cases h
      | succ depth =>
        obtain ⟨js, hjs, rfl⟩ := keep?_array_eq_some.mp h
        refine .inr ⟨items, rfl, fun item hitem => ?_⟩
        obtain ⟨kept, hkept, hkeep⟩ := exists_of_forall₂_left hjs hitem
        refine isBlock_of_keep? hkeep (honce.child hitem) (hall _ ?_)
        rw [toRaw, itemsToRaw_eq] at heq
        rw [← array.inj heq]
        exact List.mem_map_of_mem hkept
    · cases depth with
      | zero => cases h
      | succ depth =>
        obtain ⟨kept, -, rfl⟩ := keep?_object_eq_some.mp h
        cases heq

end Json.Raw

end TablePipeline
