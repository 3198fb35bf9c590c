import TablePipeline.Proofs.JsonText
import TablePipeline.Proofs.NameMap
import TablePipeline.Proofs.Outcome
/-!
# Trees and the values they are kept as

A value that is kept of a tree has its members in order and none of them twice. It is kept again, as
it is, of what is written for it (`Raw.kept_of_keep?`).
-/

namespace TablePipeline.Json

open Outcome (mapM_eq_some_iff isSome_mapM_iff exists_of_forall₂_right)

section Lists

variable {items : List Json} {members : List (String × Json)}

theorem itemsToRaw_eq (items : List Json) : itemsToRaw items = items.map toRaw := by
  induction items with
  | nil => rfl
  | cons item items ih => rw [itemsToRaw, ih, List.map_cons]

theorem membersToRaw_eq (members : List (String × Json)) :
    membersToRaw members = members.map fun m => (some m.1, m.2.toRaw) := by
  induction members with
  | nil => rfl
  | cons m members ih => rw [membersToRaw, ih, List.map_cons]

theorem itemsReadBack_iff : ItemsReadBack items ↔ ∀ item ∈ items, item.ReadsBack := by
  induction items with
  | nil => simp [ItemsReadBack]
  | cons item items ih => rw [ItemsReadBack, ih, List.forall_mem_cons]

theorem membersReadBack_iff : MembersReadBack members ↔ ∀ m ∈ members, m.2.ReadsBack := by
  induction members with
  | nil => simp [MembersReadBack]
  | cons m members ih => rw [MembersReadBack, ih, List.forall_mem_cons]

theorem membersNesting_le {d : Nat} :
    membersNesting members ≤ d ↔ ∀ m ∈ members, m.2.nesting ≤ d := by
  induction members with
  | nil => simp [membersNesting]
  | cons m members ih => rw [membersNesting, Nat.max_le, ih, List.forall_mem_cons]

end Lists

namespace Raw

/-! ### The trees in a tree -/

/-- The trees right below a tree. -/
def children : Raw → List Raw
  | .array items => items
  | .object members => members.map (·.2)
  | .null | .bool _ | .number _ | .string _ => []

mutual

/-- A tree and all trees in it. -/
def trees : Raw → List Raw
  | .array items => .array items :: itemsTrees items
  | .object members => .object members :: membersTrees members
  | r => [r]

def itemsTrees : List Raw → List Raw
  | [] => []
  | item :: items => item.trees ++ itemsTrees items

def membersTrees : List (Option String × Raw) → List Raw
  | [] => []
  | (_, value) :: members => value.trees ++ membersTrees members

end

variable {r s : Raw} {Q : Raw → Prop}

theorem mem_itemsTrees {items : List Raw} : s ∈ itemsTrees items ↔ ∃ r ∈ items, s ∈ r.trees := by
  induction items with
  | nil => simp [itemsTrees]
  | cons item items ih => simp [itemsTrees, ih]

theorem mem_membersTrees {members : List (Option String × Raw)} :
    s ∈ membersTrees members ↔ ∃ m ∈ members, s ∈ m.2.trees := by
  induction members with
  | nil => simp [membersTrees]
  | cons m members ih => simp [membersTrees, ih]

/-- The predicate holds of the tree and of all trees in it. -/
def Everywhere (Q : Raw → Prop) (r : Raw) : Prop := ∀ s ∈ r.trees, Q s

instance [DecidablePred Q] : Decidable (r.Everywhere Q) :=
  inferInstanceAs (Decidable (∀ s ∈ r.trees, Q s))

theorem everywhere_iff : r.Everywhere Q ↔ Q r ∧ ∀ s ∈ r.children, s.Everywhere Q := by
  cases r with
  | null | bool b | number n | string s => simp [Everywhere, trees, children]
  | array items =>
    simp only [Everywhere, trees, children, List.forall_mem_cons, mem_itemsTrees]
    exact and_congr_right fun _ => ⟨fun h r hr s hs => h s ⟨r, hr, hs⟩,
      fun h s ⟨r, hr, hs⟩ => h r hr s hs⟩
  | object members =>
    simp only [Everywhere, trees, children, List.forall_mem_cons, mem_membersTrees,
      List.forall_mem_map]
    exact and_congr_right fun _ => ⟨fun h m hm s hs => h s ⟨m, hm, hs⟩,
      fun h s ⟨m, hm, hs⟩ => h m hm s hs⟩

theorem everywhere_of_leaf (h : Q r) (hleaf : r.children = []) : r.Everywhere Q := by
  refine everywhere_iff.mpr ⟨h, fun s hs => ?_⟩
  rw [hleaf] at hs
  cases hs

theorem Everywhere.imp {Q' : Raw → Prop} (h : r.Everywhere Q) (hQ : ∀ s, Q s → Q' s) :
    r.Everywhere Q' := fun s hs => hQ s (h s hs)

theorem Everywhere.here (h : r.Everywhere Q) : Q r := (everywhere_iff.mp h).1

theorem Everywhere.child (h : r.Everywhere Q) (hs : s ∈ r.children) : s.Everywhere Q :=
  (everywhere_iff.mp h).2 s hs

/-! ### Keeping trees -/

variable {depth : Nat} {items : List Raw} {members : List (Option String × Raw)} {j : Json}

/-- A member is kept if its key is a text and its value is kept. -/
def keepMember? (depth : Nat) (m : Option String × Raw) : Option (String × Json) := do
  return (← m.1, ← keep? depth m.2)

theorem keepMember?_eq_some {m : Option String × Raw} {kept : String × Json} :
    keepMember? depth m = some kept ↔ m.1 = some kept.1 ∧ keep? depth m.2 = some kept.2 := by
  obtain ⟨key, value⟩ := m
  obtain ⟨name, j⟩ := kept
  cases key with
  | none => simp [keepMember?]
  | some key => simp [keepMember?, Option.bind_eq_some_iff, and_comm]

theorem keep?_array_eq_some :
    keep? (depth + 1) (.array items) = some j ↔
      ∃ js, List.Forall₂ (fun item kept => keep? depth item = some kept) items js ∧
        j = .array js := by
  rw [keep?, Option.bind_eq_bind, Option.bind_eq_some_iff]
  simp only [mapM_eq_some_iff, Option.pure_def, Option.some.injEq, eq_comm (b := j)]

theorem keep?_object_eq_some :
    keep? (depth + 1) (.object members) = some j ↔
      ∃ kept, List.Forall₂ (fun m k => keepMember? depth m = some k) members kept ∧
        j = .object (sortByName kept) := by
  change (members.mapM (keepMember? depth) >>= _) = _ ↔ _
  rw [Option.bind_eq_bind, Option.bind_eq_some_iff]
  simp only [mapM_eq_some_iff, Option.pure_def, Option.some.injEq, eq_comm (b := j)]

theorem isSome_keep?_array : (keep? (depth + 1) (.array items)).isSome = true ↔
    ∀ item ∈ items, (keep? depth item).isSome = true := by
  rw [keep?, isSome_bind fun _ => rfl, isSome_mapM_iff]

theorem isSome_keep?_object : (keep? (depth + 1) (.object members)).isSome = true ↔
    ∀ m ∈ members, m.1.isSome = true ∧ (keep? depth m.2).isSome = true := by
  change (members.mapM (keepMember? depth) >>= _).isSome = true ↔ _
  rw [isSome_bind fun _ => rfl, isSome_mapM_iff]
  refine forall₂_congr fun m _ => ?_
  obtain ⟨_ | key, value⟩ := m
  · simp [keepMember?]
  · change (keep? depth value >>= fun kept => some (key, kept)).isSome = true ↔ _
    rw [isSome_bind fun _ => rfl]
    simp

/-- What is kept is kept in all its parts. -/
theorem isSome_keep?_child (h : (r.keep? depth).isSome = true) (hs : s ∈ r.children) :
    ∃ d, depth = d + 1 ∧ (s.keep? d).isSome = true := by
  cases r with
  | null | bool b | number n | string s => cases hs
  | array items =>
    cases depth with
    | zero => cases h
    | succ depth => exact ⟨depth, rfl, isSome_keep?_array.mp h s hs⟩
  | object members =>
    cases depth with
    | zero => cases h
    | succ depth =>
      obtain ⟨m, hm, rfl⟩ := List.mem_map.mp hs
      exact ⟨depth, rfl, (isSome_keep?_object.mp h m hm).2⟩

/-- What is kept is kept as the same value with more room. -/
theorem keep?_mono {d : Nat} (h : r.keep? depth = some j) (hd : depth ≤ d) :
    r.keep? d = some j := by
  induction depth generalizing r j d with
  | zero =>
    cases r with
    | null | bool b | number n | string s =>
      rw [keep?] at h ⊢
      exact h
    | array items | object members => cases h
  | succ depth ih =>
    obtain ⟨d, rfl⟩ : ∃ k, d = k + 1 := ⟨d - 1, by omega⟩
    have hroom : depth ≤ d := by omega
    cases r with
    | null | bool b | number n | string s =>
      rw [keep?] at h ⊢
      exact h
    | array items =>
      obtain ⟨js, hjs, rfl⟩ := keep?_array_eq_some.mp h
      exact keep?_array_eq_some.mpr ⟨js, hjs.imp fun _ _ hitem => ih hitem hroom, rfl⟩
    | object members =>
      obtain ⟨kept, hkept, rfl⟩ := keep?_object_eq_some.mp h
      refine keep?_object_eq_some.mpr ⟨kept, hkept.imp fun m k hmember => ?_, rfl⟩
      obtain ⟨hkey, hvalue⟩ := keepMember?_eq_some.mp hmember
      exact keepMember?_eq_some.mpr ⟨hkey, ih hvalue hroom⟩

theorem isSome_keep?_mono {d : Nat} (h : (r.keep? depth).isSome = true) (hd : depth ≤ d) :
    (r.keep? d).isSome = true := by
  obtain ⟨j, hj⟩ := Option.isSome_iff_exists.mp h
  rw [keep?_mono hj hd]
  rfl

/-- The keys that a block knows, in the order in which an array lists what stands under them. -/
def blockKeys : List String := ["id", "type", "fields", "next"]

/-- The tree is no object that has a key of blocks twice. -/
def KeysOnce : Raw → Prop
  | .object members => ∀ key ∈ blockKeys, (members.filter (·.1 = some key)).length ≤ 1
  | .null | .bool _ | .number _ | .string _ | .array _ => True

instance : DecidablePred KeysOnce
  | .object members => inferInstanceAs
    (Decidable (∀ key ∈ blockKeys, (members.filter (·.1 = some key)).length ≤ 1))
  | .null | .bool _ | .number _ | .string _ | .array _ => inferInstanceAs (Decidable True)

/-- The tree is no number, or one that is read back from what is written for it. -/
def NumberReadsBack : Raw → Prop
  | .number (some n) => n.ReadsBack
  | .number none | .null | .bool _ | .string _ | .array _ | .object _ => True

/-- The tree is one that is written: its numbers read back and no object repeats a key of blocks. -/
structure Tidy (r : Raw) : Prop where
  number : NumberReadsBack r
  once : KeysOnce r

/-- Where all keys differ no key is there twice. -/
theorem tidy_of_nodup {members : List (String × Json)} (h : (members.map (·.1)).Nodup) :
    Tidy (.object (membersToRaw members)) := by
  refine ⟨trivial, fun key _ => ?_⟩
  rw [membersToRaw_eq, List.filter_map, List.length_map]
  calc (members.filter ((fun m => decide (m.1 = some key)) ∘ fun m => (some m.1, m.2.toRaw))).length
      = (members.map (·.1)).count key := by
        rw [List.count, List.countP_map, List.countP_eq_length_filter]
        congr 2
        funext m
        simp [beq_eq_decide]
    _ ≤ 1 := List.nodup_iff_count_le_one.mp h key

end Raw

/-- What holds of all values that are kept of trees whose numbers read back. -/
structure Kept (j : Json) : Prop where
  readsBack : j.ReadsBack
  again : ∀ depth, j.nesting ≤ depth → j.toRaw.keep? depth = some j
  tidy : j.toRaw.Everywhere Raw.Tidy

namespace Kept

variable {js : List Json} {sorted : List (String × Json)}

theorem array (h : ∀ j ∈ js, j.Kept) : (Json.array js).Kept where
  readsBack := itemsReadBack_iff.mpr fun j hj => (h j hj).readsBack
  again := by
    rintro (_ | depth) hdeep
    · simp [nesting] at hdeep
    · rw [nesting, Nat.succ_le_succ_iff, itemsNesting_le] at hdeep
      rw [toRaw, itemsToRaw_eq]
      refine Raw.keep?_array_eq_some.mpr ⟨js, ?_, rfl⟩
      rw [List.forall₂_map_left_iff, List.forall₂_same]
      exact fun j hj => (h j hj).again depth (hdeep j hj)
  tidy := by
    rw [toRaw, itemsToRaw_eq]
    refine Raw.everywhere_iff.mpr ⟨⟨trivial, trivial⟩, List.forall_mem_map.mpr fun j hj => ?_⟩
    exact (h j hj).tidy

theorem object (hsorted : SortedByName sorted) (h : ∀ m ∈ sorted, m.2.Kept) :
    (Json.object sorted).Kept where
  readsBack := membersReadBack_iff.mpr fun m hm => (h m hm).readsBack
  again := by
    rintro (_ | depth) hdeep
    · simp [nesting] at hdeep
    · rw [nesting, Nat.succ_le_succ_iff, membersNesting_le] at hdeep
      rw [toRaw, membersToRaw_eq]
      refine Raw.keep?_object_eq_some.mpr ⟨sorted, ?_, by rw [sortByName_eq_self hsorted]⟩
      rw [List.forall₂_map_left_iff, List.forall₂_same]
      exact fun m hm => Raw.keepMember?_eq_some.mpr ⟨rfl, (h m hm).again depth (hdeep m hm)⟩
  tidy := by
    refine Raw.everywhere_iff.mpr ⟨Raw.tidy_of_nodup (nodup_of_sorted hsorted), ?_⟩
    rw [toRaw, membersToRaw_eq, Raw.children, List.map_map, List.forall_mem_map]
    exact fun m hm => (h m hm).tidy

end Kept

/-- A value that is kept nests no deeper than it may. -/
theorem Raw.kept_of_keep? : ∀ (depth : Nat) (r : Raw) (j : Json), r.keep? depth = some j →
    r.Everywhere NumberReadsBack → j.nesting ≤ depth ∧ j.Kept
  | _, .null, _, h, _ | _, .bool _, _, h, _ => by
    rw [keep?] at h
    cases h
    refine ⟨Nat.zero_le _, trivial, fun d _ => by rw [toRaw, keep?], ?_⟩
    exact everywhere_of_leaf ⟨trivial, trivial⟩ rfl
  | _, .number n, _, h, hnumbers => by
    rw [keep?] at h
    obtain ⟨n, rfl, rfl⟩ := Option.map_eq_some_iff.mp h
    refine ⟨Nat.zero_le _, hnumbers.here, fun d _ => by rw [toRaw, keep?, Option.map_some], ?_⟩
    exact everywhere_of_leaf ⟨hnumbers.here, trivial⟩ rfl
  | _, .string s, _, h, _ => by
    rw [keep?] at h
    obtain ⟨s, rfl, rfl⟩ := Option.map_eq_some_iff.mp h
    refine ⟨Nat.zero_le _, trivial, fun d _ => by rw [toRaw, keep?, Option.map_some], ?_⟩
    exact everywhere_of_leaf ⟨trivial, trivial⟩ rfl
  | 0, .array _, _, h, _ | 0, .object _, _, h, _ => by
    rw [keep?] at h
    cases h
  | depth + 1, .array items, _, h, hnumbers => by
    obtain ⟨js, hjs, rfl⟩ := keep?_array_eq_some.mp h
    have hall (j : Json) (hj : j ∈ js) : j.nesting ≤ depth ∧ j.Kept := by
      obtain ⟨item, hitem, hkeep⟩ := exists_of_forall₂_right hjs hj
      exact kept_of_keep? depth item j hkeep (hnumbers.child hitem)
    refine ⟨?_, .array fun j hj => (hall j hj).2⟩
    rw [nesting, Nat.succ_le_succ_iff, itemsNesting_le]
    exact fun j hj => (hall j hj).1
  | depth + 1, .object members, _, h, hnumbers => by
    obtain ⟨kept, hkept, rfl⟩ := keep?_object_eq_some.mp h
    have hall (m : String × Json) (hm : m ∈ sortByName kept) : m.2.nesting ≤ depth ∧ m.2.Kept := by
      obtain ⟨member, hmember, hkeep⟩ := exists_of_forall₂_right hkept (mem_of_mem_sortByName hm)
      have hvalue := (keepMember?_eq_some.mp hkeep).2
      exact kept_of_keep? depth member.2 m.2 hvalue
        (hnumbers.child (List.mem_map_of_mem hmember))
    refine ⟨?_, .object (sortedByName_sortByName kept) fun m hm => (hall m hm).2⟩
    rw [nesting, Nat.succ_le_succ_iff, membersNesting_le]
    exact fun m hm => (hall m hm).1

/-- What is kept of a tree nests no deeper than any bound within which the tree is kept. -/
theorem Raw.nesting_of_keep? {depth n : Nat} {r : Raw} {j : Json} (h : r.keep? depth = some j)
    (hn : (r.keep? n).isSome = true) (hnumbers : r.Everywhere NumberReadsBack) : j.nesting ≤ n := by
  obtain ⟨j', hj'⟩ := Option.isSome_iff_exists.mp hn
  have hnested := (kept_of_keep? n r j' hj' hnumbers).1
  rcases Nat.le_total n depth with hle | hle
  · rw [keep?_mono hj' hle] at h
    cases h
    exact hnested
  · rw [keep?_mono h hle] at hj'
    cases hj'
    exact hnested

end TablePipeline.Json
