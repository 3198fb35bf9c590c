import TablePipeline.Proofs.Columns
import Mathlib.Data.List.FinRange
import Mathlib.Data.List.Induction
import Mathlib.Data.List.Pairwise
/-!
# Groups

Grouping puts every row into the first group whose key matches its own, or into a new group at the
end. `Class` stands for a group by the items in it, of any type, and `Class.Partition` says what
holds of the classes whatever the items and their keys are. For the positions of the rows of a table
this is what `Table.group` does (`Table.group_partitions`).

A key need not match itself, since NaN does not. The statements therefore always say which of two
keys matches the other.
-/

namespace TablePipeline

/-! ### Classes -/

/-- The items of a group. The first one gives the key. -/
structure Class (ι : Type) where
  first : ι
  later : List ι

namespace Class

variable {ι : Type} {key : ι → Value} {seen items : List ι} {classes : List (Class ι)} {i : ι}

/-- The items of the group, the first one first. -/
def members (c : Class ι) : List ι := c.first :: c.later

/-- Puts an item into the first class whose key matches its own, or into a new class at the end. -/
def place (key : ι → Value) (i : ι) : List (Class ι) → List (Class ι)
  | [] => [⟨i, []⟩]
  | c :: rest =>
    if (key c.first).sameKey (key i) then ⟨c.first, c.later ++ [i]⟩ :: rest
    else c :: place key i rest

/-- The classes of some items, which are placed one after the other. -/
def ofItems (key : ι → Value) (items : List ι) : List (Class ι) :=
  items.foldl (fun classes i => place key i classes) []

theorem ofItems_append_singleton (key : ι → Value) (items : List ι) (i : ι) :
    ofItems key (items ++ [i]) = place key i (ofItems key items) :=
  List.foldl_append

/-- An item goes into a class, or there is one class more. -/
theorem place_cases (key : ι → Value) (i : ι) (classes : List (Class ι)) :
    (∃ before c after, classes = before ++ c :: after ∧
      (∀ b ∈ before, (key b.first).sameKey (key i) = false) ∧
      (key c.first).sameKey (key i) = true ∧
      place key i classes = before ++ ⟨c.first, c.later ++ [i]⟩ :: after) ∨
    (∀ b ∈ classes, (key b.first).sameKey (key i) = false) ∧
      place key i classes = classes ++ [⟨i, []⟩] := by
  induction classes with
  | nil => exact .inr ⟨nofun, rfl⟩
  | cons c rest ih =>
    rw [place]
    cases hmatch : (key c.first).sameKey (key i) with
    | true => exact .inl ⟨[], c, rest, rfl, nofun, hmatch, rfl⟩
    | false =>
      rw [if_neg Bool.false_ne_true]
      rcases ih with ⟨before, d, after, rfl, hbefore, hd, heq⟩ | ⟨hrest, heq⟩
      · refine .inl ⟨c :: before, d, after, rfl, ?_, hd, by rw [heq]; rfl⟩
        exact List.forall_mem_cons.mpr ⟨hmatch, hbefore⟩
      · exact .inr ⟨List.forall_mem_cons.mpr ⟨hmatch, hrest⟩, by rw [heq]; rfl⟩

/-- The classes hold the items seen, each in one class and in order. Later items of a class are
matched by its key, and no item is matched by the key of a class before its own. -/
structure Partition (key : ι → Value) (seen : List ι) (classes : List (Class ι)) : Prop where
  covers : (classes.flatMap members).Perm seen
  kept : ∀ c ∈ classes, c.members.Sublist seen
  ordered : (classes.map first).Sublist seen
  matched : ∀ c ∈ classes, ∀ i ∈ c.later, (key c.first).sameKey (key i) = true
  apart : classes.Pairwise fun c d => ∀ i ∈ d.members, (key c.first).sameKey (key i) = false

namespace Partition

/-- An item that the key of a class matches, and none before, goes to the end of that class. -/
theorem grow {before after : List (Class ι)} {c : Class ι}
    (h : Partition key seen (before ++ c :: after))
    (hbefore : ∀ b ∈ before, (key b.first).sameKey (key i) = false)
    (hc : (key c.first).sameKey (key i) = true) :
    Partition key (seen ++ [i]) (before ++ ⟨c.first, c.later ++ [i]⟩ :: after) := by
  have hseen : seen.Sublist (seen ++ [i]) := List.sublist_append_left ..
  have hmem (d : Class ι) (hd : d ∈ before ∨ d ∈ after) : d ∈ before ++ c :: after :=
    List.mem_append.mpr (hd.imp_right (List.mem_cons_of_mem c))
  have hcmem : c ∈ before ++ c :: after := List.mem_append_right _ List.mem_cons_self
  obtain ⟨hpast, hrest, hcross⟩ := List.pairwise_append.mp h.apart
  obtain ⟨hafter, hlater⟩ := List.pairwise_cons.mp hrest
  constructor
  case covers =>
    have hmove : (before.flatMap members ++ (c.members ++ ([i] ++ after.flatMap members))).Perm
        (before.flatMap members ++ (c.members ++ (after.flatMap members ++ [i]))) :=
      (List.perm_append_comm.append_left _).append_left _
    have hcovers := h.covers.append_right [i]
    simp only [List.flatMap_append, List.flatMap_cons, List.append_assoc] at hcovers
    simpa [members] using hmove.trans hcovers
  case kept =>
    intro d hd
    rcases List.mem_append.mp hd with hd | hd
    · exact (h.kept d (hmem d (.inl hd))).trans hseen
    · rcases List.mem_cons.mp hd with rfl | hd
      · exact (h.kept c hcmem).append_right [i]
      · exact (h.kept d (hmem d (.inr hd))).trans hseen
  case ordered =>
    have hordered := h.ordered.trans hseen
    rwa [List.map_append, List.map_cons] at hordered ⊢
  case matched =>
    intro d hd j hj
    rcases List.mem_append.mp hd with hd | hd
    · exact h.matched d (hmem d (.inl hd)) j hj
    · rcases List.mem_cons.mp hd with rfl | hd
      · rcases List.mem_append.mp hj with hj | hj
        · exact h.matched c hcmem j hj
        · rwa [List.mem_singleton.mp hj]
      · exact h.matched d (hmem d (.inr hd)) j hj
  case apart =>
    refine List.pairwise_append.mpr ⟨hpast, List.pairwise_cons.mpr ⟨hafter, hlater⟩, ?_⟩
    intro b hb d hd j hj
    rcases List.mem_cons.mp hd with rfl | hd
    · rcases List.mem_append.mp (show j ∈ c.members ++ [i] from hj) with hj | hj
      · exact hcross b hb c List.mem_cons_self j hj
      · rw [List.mem_singleton.mp hj]
        exact hbefore b hb
    · exact hcross b hb d (List.mem_cons_of_mem _ hd) j hj

/-- An item that no key matches starts a class of its own. -/
theorem start (h : Partition key seen classes)
    (hnone : ∀ b ∈ classes, (key b.first).sameKey (key i) = false) :
    Partition key (seen ++ [i]) (classes ++ [⟨i, []⟩]) := by
  have hseen : seen.Sublist (seen ++ [i]) := List.sublist_append_left ..
  constructor
  case covers =>
    rw [List.flatMap_append]
    exact h.covers.append_right [i]
  case kept =>
    refine List.forall_mem_append.mpr ⟨fun c hc => (h.kept c hc).trans hseen, ?_⟩
    exact List.forall_mem_singleton.mpr (List.sublist_append_right ..)
  case ordered =>
    rw [List.map_append]
    exact h.ordered.append_right [i]
  case matched =>
    exact List.forall_mem_append.mpr ⟨h.matched, List.forall_mem_singleton.mpr nofun⟩
  case apart =>
    refine List.pairwise_append.mpr ⟨h.apart, List.pairwise_singleton .., ?_⟩
    intro b hb d hd j hj
    obtain rfl := List.mem_singleton.mp hd
    obtain rfl := List.mem_singleton.mp hj
    exact hnone b hb

theorem place (h : Partition key seen classes) (i : ι) :
    Partition key (seen ++ [i]) (place key i classes) := by
  rcases place_cases key i classes with ⟨before, c, after, rfl, hbefore, hc, heq⟩ | ⟨hnone, heq⟩
  · rw [heq]
    exact h.grow hbefore hc
  · rw [heq]
    exact h.start hnone

theorem ofItems (key : ι → Value) (items : List ι) : Partition key items (ofItems key items) := by
  induction items using List.reverseRecOn with
  | nil => exact ⟨.nil, nofun, .slnil, nofun, .nil⟩
  | append_singleton items i ih =>
    rw [ofItems_append_singleton]
    exact ih.place i

end Partition

/-- The first item takes all items that its key matches. The others make classes of their own. -/
theorem ofItems_cons (key : ι → Value) (i : ι) (items : List ι) :
    ofItems key (i :: items) = ⟨i, items.filter fun j => (key i).sameKey (key j)⟩ ::
      ofItems key (items.filter fun j => !(key i).sameKey (key j)) := by
  induction items using List.reverseRecOn with
  | nil => rfl
  | append_singleton items j ih =>
    rw [← List.cons_append, ofItems_append_singleton, ih, place, List.filter_append,
      List.filter_append]
    cases hmatch : (key i).sameKey (key j) with
    | true => simp [hmatch]
    | false => simp [hmatch, ofItems_append_singleton]

end Class

/-! ### Keys -/

theorem Binary64.compare?_of_isNaN {x y : Float} (h : isNaN x = true ∨ isNaN y = true) :
    compare? x y = none := by
  rw [compare?, rank?, rank?]
  rcases h with h | h
  · rw [if_pos h]
    rfl
  · rw [if_pos h]
    cases (if isNaN x = true then none else some _ : Option Int) <;> rfl

theorem Binary64.compare?_swap (x y : Float) : compare? y x = (compare? x y).map Ordering.swap := by
  unfold compare?
  cases rank? x with
  | none => cases rank? y <;> rfl
  | some a =>
    cases rank? y with
    | none => rfl
    | some b => exact congrArg some (Int.compare_swap a b).symm

namespace Value

variable {a b : Value}

/-- The value is a double. -/
def isFloat : Value → Bool
  | .float _ => true
  | _ => false

/-- The value is a double that is no number. -/
def isNaN : Value → Bool
  | .float x => Binary64.isNaN x
  | _ => false

theorem order?_of_isNaN (context : String) (h : a.isNaN = true ∨ b.isNaN = true)
    (ord : Ordering) : a.order? context b ≠ .ok (some ord) := by
  cases a <;> cases b <;> simp_all [isNaN, order?, toFloat?, Binary64.compare?_of_isNaN]

/-- Two values compared the other way round. -/
theorem order?_swap {context : String} {ord : Option Ordering}
    (h : a.order? context b = .ok ord) : b.order? context a = .ok (ord.map Ordering.swap) := by
  cases a <;> cases b <;> cases h <;>
    first
      | rfl
      | exact congrArg Except.ok (Binary64.compare?_swap _ _)
      | exact congrArg (Except.ok ∘ some) Std.OrientedCmp.eq_swap

theorem isMissing_of_isNaN (h : a.isNaN = true) : a.isMissing = false := by
  cases a with
  | float x => rfl
  | missing | bool _ | int _ | text _ => cases h

theorem sameKey_iff : a.sameKey b = true ↔
    a.isMissing = true ∧ b.isMissing = true ∨
      a.isMissing = false ∧ b.isMissing = false ∧ a.order? "key" b = .ok (some .eq) := by
  unfold sameKey
  cases a.isMissing <;> cases b.isMissing <;> simp
  split <;> simp_all

theorem sameKey_comm : a.sameKey b = b.sameKey a := by
  have key {a b : Value} (h : a.sameKey b = true) : b.sameKey a = true := by
    rw [sameKey_iff] at h ⊢
    obtain ⟨ha, hb⟩ | ⟨ha, hb, heq⟩ := h
    · exact .inl ⟨hb, ha⟩
    · exact .inr ⟨hb, ha, order?_swap heq⟩
  exact Bool.eq_iff_iff.mpr ⟨key, key⟩

/-- NaN matches no key, not even itself. -/
theorem sameKey_of_isNaN (h : a.isNaN = true ∨ b.isNaN = true) : a.sameKey b = false := by
  rw [← Bool.not_eq_true, sameKey_iff]
  rintro (⟨ha, hb⟩ | ⟨-, -, heq⟩)
  · rcases h with h | h
    · rw [isMissing_of_isNaN h] at ha
      cases ha
    · rw [isMissing_of_isNaN h] at hb
      cases hb
  · exact order?_of_isNaN "key" h .eq heq

/-- Keys that are no doubles match if they are equal, and only then. -/
theorem sameKey_iff_eq (ha : a.isFloat = false) (hb : b.isFloat = false) :
    a.sameKey b = true ↔ a = b := by
  rw [sameKey_iff]
  cases a with
  | float x => cases ha
  | missing | bool _ | int _ | text _ =>
    cases b with
    | float y => cases hb
    | missing | bool _ | int _ | text _ =>
      simp [isMissing, order?, toFloat?, Int64.toInt_inj]

end Value

namespace Class

variable {ι : Type} {key : ι → Value} {seen : List ι} {classes : List (Class ι)} {c : Class ι}
  {i j : ι}

/-- The items are in one class. -/
def Together (classes : List (Class ι)) (i j : ι) : Prop :=
  ∃ c ∈ classes, i ∈ c.members ∧ j ∈ c.members

namespace Partition

theorem mem_seen (h : Partition key seen classes) (hc : c ∈ classes) (hi : i ∈ c.members) :
    i ∈ seen :=
  (h.kept c hc).subset hi

theorem first_mem (h : Partition key seen classes) (hc : c ∈ classes) : c.first ∈ seen :=
  h.mem_seen hc List.mem_cons_self

theorem exists_class (h : Partition key seen classes) (hi : i ∈ seen) :
    ∃ c ∈ classes, i ∈ c.members :=
  List.mem_flatMap.mp (h.covers.mem_iff.mpr hi)

/-- The key of a class is the key of the item, or matches it. -/
theorem key_of_mem (h : Partition key seen classes) (hc : c ∈ classes) (hi : i ∈ c.members) :
    i = c.first ∨ (key c.first).sameKey (key i) = true :=
  (List.mem_cons.mp hi).imp_right (h.matched c hc i)

/-- An item whose key is NaN is alone. -/
theorem alone_of_isNaN (h : Partition key seen classes) (hc : c ∈ classes) (hi : i ∈ c.members)
    (hnan : (key i).isNaN = true) : c.members = [i] := by
  have hfirst : i = c.first := by
    refine (h.key_of_mem hc hi).resolve_right ?_
    rw [Value.sameKey_of_isNaN (.inr hnan)]
    exact Bool.false_ne_true
  have hlater : c.later = [] := by
    refine List.eq_nil_iff_forall_not_mem.mpr fun j hj => ?_
    have hmatch := h.matched c hc j hj
    rw [Value.sameKey_of_isNaN (.inl (hfirst ▸ hnan))] at hmatch
    cases hmatch
  rw [members, hlater, hfirst]

/-- If each of two classes has an item that the key of the other one matches, they are one class. -/
theorem eq_of_matched (h : Partition key seen classes) {d : Class ι} (hc : c ∈ classes)
    (hd : d ∈ classes) (hi : i ∈ c.members) (hj : j ∈ d.members)
    (hcj : (key c.first).sameKey (key j) = true) (hdi : (key d.first).sameKey (key i) = true) :
    c = d := by
  obtain ⟨m, hm, rfl⟩ := List.getElem_of_mem hc
  obtain ⟨n, hn, rfl⟩ := List.getElem_of_mem hd
  have hapart := List.pairwise_iff_getElem.mp h.apart
  rcases lt_trichotomy m n with hlt | rfl | hlt
  · cases hcj.symm.trans (hapart m n hm hn hlt j hj)
  · rfl
  · cases hdi.symm.trans (hapart n m hn hm hlt i hi)

/-- Where matching is an equivalence, items are in one class if and only if their keys match. -/
theorem together_iff_sameKey (h : Partition key seen classes)
    (hself : ∀ i ∈ seen, (key i).sameKey (key i) = true)
    (htrans : ∀ i ∈ seen, ∀ j ∈ seen, ∀ k ∈ seen, (key i).sameKey (key j) = true →
      (key j).sameKey (key k) = true → (key i).sameKey (key k) = true)
    (hi : i ∈ seen) (hj : j ∈ seen) :
    Together classes i j ↔ (key i).sameKey (key j) = true := by
  have hkey {c : Class ι} (hc : c ∈ classes) {k : ι} (hk : k ∈ c.members) :
      (key c.first).sameKey (key k) = true := by
    rcases h.key_of_mem hc hk with rfl | hmatch
    · exact hself _ (h.mem_seen hc hk)
    · exact hmatch
  constructor
  · rintro ⟨c, hc, hic, hjc⟩
    have hback : (key i).sameKey (key c.first) = true := Value.sameKey_comm.trans (hkey hc hic)
    exact htrans i hi _ (h.first_mem hc) j hj hback (hkey hc hjc)
  · intro hmatch
    obtain ⟨c, hc, hic⟩ := h.exists_class hi
    obtain ⟨d, hd, hjd⟩ := h.exists_class hj
    have hcj := htrans _ (h.first_mem hc) i hi j hj (hkey hc hic) hmatch
    have hdi := htrans _ (h.first_mem hd) j hj i hi (hkey hd hjd) (Value.sameKey_comm.trans hmatch)
    obtain rfl := h.eq_of_matched hc hd hic hjd hcj hdi
    exact ⟨c, hc, hic, hjd⟩

/-- Keys that are no doubles match if they are equal, which is an equivalence. -/
theorem together_iff_of_not_float (h : Partition key seen classes)
    (hfloat : ∀ i ∈ seen, (key i).isFloat = false) (hi : i ∈ seen) (hj : j ∈ seen) :
    Together classes i j ↔ key i = key j := by
  have hiff {i j : ι} (hi : i ∈ seen) (hj : j ∈ seen) :
      (key i).sameKey (key j) = true ↔ key i = key j :=
    Value.sameKey_iff_eq (hfloat i hi) (hfloat j hj)
  rw [h.together_iff_sameKey (fun i hi => (hiff hi hi).mpr rfl) ?_ hi hj, hiff hi hj]
  intro i hi j hj k hk hij hjk
  exact (hiff hi hk).mpr (((hiff hi hj).mp hij).trans ((hiff hj hk).mp hjk))

end Partition

end Class

/-! ### Tables -/

/-- The cell of a row in a column that it has. -/
def Row.keyIn (column : String) (row : Row) : Value := (row.get? column).getD .missing

/-- The row with the column replaced by the index. -/
def Row.indexedBy (column : String) (row : Row) : Row :=
  (row.erase column).insert indexColumn (row.keyIn column)

namespace Row

variable {column name : String} {row : Row}

theorem get?_of_contains (h : row.contains column = true) :
    row.get? column = some (row.keyIn column) := by
  obtain ⟨v, hv⟩ := Option.isSome_iff_exists.mp h
  rw [keyIn, hv, Option.getD_some]

theorem cell_of_contains (h : row.contains column = true) :
    row.cell column = .ok (row.keyIn column) := by
  rw [cell, get?_of_contains h]

theorem contains_of_cell {v : Value} (h : row.cell column = .ok v) : row.contains column = true := by
  unfold cell at h
  split at h
  · next w hget => rw [NameMap.contains, hget, Option.isSome_some]
  · cases h

/-- A row fails to give a cell only in a column that it does not have. -/
theorem cell_misses (row : Row) (column : String) :
    Outcome.Raises (fun e => e = .unknownColumn column ∧ row.contains column = false)
      (row.cell column) := by
  unfold cell
  split
  · exact .ok _
  · next hget => exact .error ⟨rfl, by rw [NameMap.contains, hget, Option.isSome_none]⟩

theorem get?_indexedBy : (row.indexedBy column).get? indexColumn = some (row.keyIn column) := by
  rw [indexedBy, NameMap.get?_insert, if_pos rfl]

theorem get?_indexedBy_of_ne (hcolumn : name ≠ column) (hindex : name ≠ indexColumn) :
    (row.indexedBy column).get? name = row.get? name := by
  rw [indexedBy, NameMap.get?_insert, if_neg hindex, NameMap.get?_erase, if_neg hcolumn]

end Row

namespace Table

variable {t : Table} {column : String}

theorem requireColumn_eq (h : ∀ row ∈ t.rows, row.contains column = true) :
    t.requireColumn column = .ok () := by
  unfold requireColumn
  split
  · rfl
  · next first rest hrows => rw [if_pos (h first (by rw [hrows]; exact List.mem_cons_self))]

theorem indexBy_eq {row : Row} (h : row.contains column = true) :
    indexBy column row = .ok (row.keyIn column, row.indexedBy column) := by
  rw [indexBy, Row.cell_of_contains h]
  rfl

/-- The bucket of a class of rows. -/
def bucketOf {ι : Type} (column : String) (source : ι → Row) (c : Class ι) : Bucket :=
  ((source c.first).keyIn column, c.members.map fun i => (source i).indexedBy column)

theorem map_bucketOf_place {ι : Type} (column : String) (source : ι → Row) (i : ι)
    (classes : List (Class ι)) :
    (Class.place (fun i => (source i).keyIn column) i classes).map (bucketOf column source)
      = addToBuckets ((source i).keyIn column) ((source i).indexedBy column)
          (classes.map (bucketOf column source)) := by
  induction classes with
  | nil => rfl
  | cons c rest ih =>
    rw [Class.place, List.map_cons, bucketOf, addToBuckets]
    split
    · simp [bucketOf, Class.members]
    · rw [List.map_cons, ih, bucketOf]

/-- The buckets of some rows are those of their classes. -/
theorem buckets_eq {ι : Type} {source : ι → Row} {items : List ι}
    (h : ∀ i ∈ items, (source i).contains column = true) :
    buckets column (items.map source)
      = .ok ((Class.ofItems (fun i => (source i).keyIn column) items).map
          (bucketOf column source)) := by
  induction items using List.reverseRecOn with
  | nil => rfl
  | append_singleton items i ih =>
    obtain ⟨hitems, hi⟩ := List.forall_mem_append.mp h
    have hstep := indexBy_eq (hi i List.mem_cons_self)
    replace ih := ih hitems
    unfold buckets at ih ⊢
    rw [List.map_append, List.foldlM_append, ih, Class.ofItems_append_singleton,
      map_bucketOf_place, List.map_singleton, Outcome.ok_bind, List.foldlM_cons, hstep]
    rfl

/-- The rows of the groups that are made of some buckets are the rows of the buckets. -/
theorem map_groupsOf (bs : List Bucket) (before : List Row) (groups : Option (List Group)) :
    (groupsOf before.length bs).map (fun g =>
      (g.key, groupRows { rows := before ++ bs.flatMap (·.2), groups } g)) = bs := by
  induction bs generalizing before with
  | nil => rfl
  | cons b rest ih =>
    obtain ⟨key, rows⟩ := b
    have hrest := ih (before ++ rows)
    rw [List.length_append, List.append_assoc] at hrest
    rw [groupsOf, List.map_cons, List.flatMap_cons, hrest]
    simp [groupRows]

/-- The table of some buckets, with one group for each. -/
def ofBuckets (bs : List Bucket) : Table :=
  { rows := bs.flatMap (·.2), groups := some (groupsOf 0 bs) }

/-- A column that all rows have groups them, into the buckets of their classes. -/
theorem group_eq {ι : Type} {source : ι → Row} {items : List ι}
    (hitems : items.map source = t.rows) (h : ∀ row ∈ t.rows, row.contains column = true) :
    t.group column = .ok (ofBuckets
      ((Class.ofItems (fun i => (source i).keyIn column) items).map (bucketOf column source))) := by
  have hbuckets : buckets column (items.map source) = _ :=
    buckets_eq fun i hi => h _ (hitems ▸ List.mem_map_of_mem hi)
  rw [hitems] at hbuckets
  rw [group, requireColumn_eq h, Outcome.ok_bind, hbuckets]
  rfl

/-- The classes of the rows of a table. Rows that are equal count one by one. -/
def classes (column : String) (t : Table) : List (Class Row) :=
  Class.ofItems (Row.keyIn column) t.rows

theorem partition_classes (column : String) (t : Table) :
    Class.Partition (Row.keyIn column) t.rows (t.classes column) :=
  .ofItems _ _

theorem group_eq_classes (h : ∀ row ∈ t.rows, row.contains column = true) :
    t.group column = .ok (ofBuckets ((t.classes column).map (bucketOf column id))) :=
  group_eq (List.map_id t.rows) h

theorem rows_ofBuckets {ι : Type} (column : String) (source : ι → Row) (classes : List (Class ι)) :
    (ofBuckets (classes.map (bucketOf column source))).rows
      = (classes.flatMap Class.members).map fun i => (source i).indexedBy column := by
  rw [ofBuckets, List.flatMap_map, List.map_flatMap]
  rfl

/-- The table `u` holds the rows of `t` in groups by a column. The classes are these groups in terms
of the positions of the rows in `t`. -/
structure GroupedBy (column : String) (t u : Table) (groups : List Group)
    (classes : List (Class (Fin t.rows.length))) : Prop where
  grouped : u.groups = some groups
  rows : u.rows.Perm (t.rows.map (Row.indexedBy column))
  tile : Group.Tile 0 groups u.rows.length
  /-- A group has the key of its first row, and its rows are those of its class. -/
  spans : groups.map (fun g => (g.key, u.groupRows g))
    = classes.map (bucketOf column fun i => t.rows[i])
  partition : Class.Partition (fun i => t.rows[i].keyIn column) (List.finRange t.rows.length)
    classes
  /-- Inside a group the rows keep their order. -/
  stable : ∀ c ∈ classes, c.members.Pairwise (· < ·)
  /-- Groups are in order of their first rows. -/
  firsts : (classes.map Class.first).Pairwise (· < ·)

/-- A column that all rows have groups them. -/
theorem exists_groupedBy (h : ∀ row ∈ t.rows, row.contains column = true) :
    ∃ u groups classes, t.group column = .ok u ∧ GroupedBy column t u groups classes := by
  let positions := List.finRange t.rows.length
  have hsource : positions.map (fun i => t.rows[i]) = t.rows := List.map_getElem_finRange _
  have hgroup := group_eq hsource h
  have hpartition :=
    Class.Partition.ofItems (fun i : Fin t.rows.length => t.rows[i].keyIn column) positions
  generalize Class.ofItems _ _ = classes at hgroup hpartition
  let bs := classes.map (bucketOf column fun i => t.rows[i])
  have hrows := rows_ofBuckets column (fun i => t.rows[i]) classes
  have hnonempty : ∀ b ∈ bs, b.2 ≠ [] := by
    intro b hb
    obtain ⟨c, -, rfl⟩ := List.mem_map.mp hb
    exact List.cons_ne_nil _ _
  have hincreasing : positions.Pairwise (· < ·) := List.pairwise_lt_finRange _
  refine ⟨ofBuckets bs, groupsOf 0 bs, classes, hgroup, ?_⟩
  constructor
  case grouped => rfl
  case rows =>
    have hperm := hpartition.covers.map fun i => t.rows[i].indexedBy column
    rw [← hrows] at hperm
    rwa [← hsource, List.map_map]
  case tile =>
    have htile := tile_groupsOf hnonempty 0
    rwa [Nat.zero_add] at htile
  case spans => exact map_groupsOf bs [] _
  case partition => exact hpartition
  case stable => exact fun c hc => hincreasing.sublist (hpartition.kept c hc)
  case firsts => exact hincreasing.sublist hpartition.ordered

/-- Grouping by a column that all rows have succeeds, and partitions the rows as `GroupedBy` and
`Class.Partition` say. A row whose key is NaN is alone in its group. Where no key is a double, rows
are in one group if and only if their keys are equal. -/
theorem group_partitions (h : ∀ row ∈ t.rows, row.contains column = true) :
    ∃ u groups classes, t.group column = .ok u ∧ GroupedBy column t u groups classes ∧
      (∀ c ∈ classes, ∀ i ∈ c.members,
        (t.rows[i].keyIn column).isNaN = true → c.members = [i]) ∧
      ((∀ row ∈ t.rows, (row.keyIn column).isFloat = false) → ∀ i j,
        Class.Together classes i j ↔ t.rows[i].keyIn column = t.rows[j].keyIn column) := by
  obtain ⟨u, groups, classes, hgroup, hgrouped⟩ := exists_groupedBy h
  refine ⟨u, groups, classes, hgroup, hgrouped, ?_, fun hfloat i j => ?_⟩
  · exact fun c hc i hi hnan => hgrouped.partition.alone_of_isNaN hc hi hnan
  · exact hgrouped.partition.together_iff_of_not_float
      (fun i _ => hfloat _ (List.getElem_mem _)) (List.mem_finRange i) (List.mem_finRange j)

/-- Keys that match though they differ, and keys that do not even match themselves. -/
def mixedKeys : Table where
  rows :=
    [.ofList [("key", .int 1), ("row", .int 0)],
      .ofList [("key", .float (0.0 / 0.0)), ("row", .int 1)],
      .ofList [("key", .float 1.0), ("row", .int 2)],
      .ofList [("key", .float (0.0 / 0.0)), ("row", .int 3)],
      .ofList [("key", .missing), ("row", .int 4)]]

theorem mixedKeys_group :
    (∀ row ∈ mixedKeys.rows, row.contains "key" = true) ∧
    ∃ u groups classes, mixedKeys.group "key" = .ok u ∧
      GroupedBy "key" mixedKeys u groups classes ∧
      ∀ c ∈ classes, ∀ i ∈ c.members,
        (mixedKeys.rows[i].keyIn "key").isNaN = true → c.members = [i] := by
  have hcolumn : ∀ row ∈ mixedKeys.rows, row.contains "key" = true := by decide
  obtain ⟨u, groups, classes, hgroup, hgrouped, hnan, -⟩ := group_partitions hcolumn
  exact ⟨hcolumn, u, groups, classes, hgroup, hgrouped, hnan⟩

end Table

end TablePipeline
