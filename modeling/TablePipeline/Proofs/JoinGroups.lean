import TablePipeline.Proofs.Join
import TablePipeline.Proofs.RowOrder
import TablePipeline.Proofs.Typing
import Mathlib.Algebra.BigOperators.Group.List.Basic
import Mathlib.Algebra.Order.Ring.Nat
import Mathlib.Data.Multiset.Bind
/-!
# Joins and groups

Where no key is a double, keys match if they are equal. Joins and groups then agree on which rows
have the same key, and it does not matter which table of a join comes first
(`Table.join_by_groups`). Rows with missing keys make a group, but no pairs.
-/

namespace TablePipeline

open Outcome

/-! ### The two sides of a join -/

/-- The name of a column of a join if its tables change places. -/
def swapSides (name : String) : String :=
  match leftColumn? name, rightColumn? name with
  | some column, _ => Table.rightName column
  | none, some column => Table.leftName column
  | none, none => name

@[simp] theorem swapSides_leftName (column : String) :
    swapSides (Table.leftName column) = Table.rightName column := by
  simp [swapSides]

@[simp] theorem swapSides_rightName (column : String) :
    swapSides (Table.rightName column) = Table.leftName column := by
  simp [swapSides]

@[simp] theorem swapSides_joinColumn : swapSides Table.joinColumn = Table.joinColumn := rfl

@[simp] theorem swapSides_swapSides (name : String) : swapSides (swapSides name) = name := by
  cases hleft : leftColumn? name with
  | some column => simp [leftColumn?_eq_some_iff.mp hleft]
  | none =>
    cases hright : rightColumn? name with
    | some column => simp [rightColumn?_eq_some_iff.mp hright]
    | none => simp [swapSides, hleft, hright]

theorem eq_swapSides_iff {name other : String} :
    name = swapSides other ↔ swapSides name = other := by
  constructor
  · intro h
    rw [h, swapSides_swapSides]
  · intro h
    rw [← h, swapSides_swapSides]

/-- The row with the prefixes of its names exchanged. -/
def Row.swapped (row : Row) : Row := row.mapNames fun name => some (swapSides name)

theorem Row.get?_swapped (row : Row) (name : String) :
    row.swapped.get? name = row.get? (swapSides name) := by
  refine NameMap.get?_mapNames (fun a b c ha hb => ?_) (congrArg some (swapSides_swapSides name))
  rw [eq_swapSides_iff.mpr (Option.some.inj ha), eq_swapSides_iff.mpr (Option.some.inj hb)]

namespace Table

section Swap

variable {key : Value} {leftColumn rightColumn : String} {l r : Row} {left right : Table}

theorem swapped_joinedRow : (joinedRow key rightColumn r leftColumn l).swapped
    = joinedRow key leftColumn l rightColumn r := by
  refine NameMap.ext_get? fun name => Option.ext fun v => ?_
  have hkey : swapSides name = joinColumn ↔ name = joinColumn := by
    rw [← eq_swapSides_iff, swapSides_joinColumn]
  rw [Row.get?_swapped, get?_joinedRow_eq_some_iff, get?_joinedRow_eq_some_iff]
  simp only [hkey, eq_swapSides_iff, swapSides_leftName, swapSides_rightName]
  exact or_congr_right or_comm

/-- No key of the table is a double. -/
def ExactKeys (t : Table) (column : String) : Prop :=
  ∀ row ∈ t.rows, (row.keyIn column).isFloat = false

theorem keysEqual_iff {a b : Value} (ha : a.isFloat = false) (hb : b.isFloat = false) :
    KeysEqual a b ↔ a ≠ .missing ∧ a = b := by
  rw [KeysEqual, ← Value.sameKey_iff_apply, Value.sameKey_iff_eq ha hb]

theorem keysEqual_comm {a b : Value} (ha : a.isFloat = false) (hb : b.isFloat = false) :
    KeysEqual b a ↔ KeysEqual a b := by
  rw [keysEqual_iff hb ha, keysEqual_iff ha hb]
  constructor
  · exact fun h => ⟨h.2 ▸ h.1, h.2.symm⟩
  · exact fun h => ⟨h.2 ▸ h.1, h.2.symm⟩

/-- The pairs of two tables that change places are the same, in another order. -/
theorem matchingPairs_swap (hleft : left.ExactKeys leftColumn)
    (hright : right.ExactKeys rightColumn) :
    ((right.matchingPairs rightColumn left leftColumn).map Prod.swap).Perm
      (left.matchingPairs leftColumn right rightColumn) := by
  -- As multisets the products are the same: the library has no lemma for lists.
  have hproduct : ((right.rows ×ˢ left.rows).map Prod.swap).Perm (left.rows ×ˢ right.rows) := by
    rw [← Multiset.coe_eq_coe, ← Multiset.map_coe, ← Multiset.coe_product,
      Multiset.map_swap_product, Multiset.coe_product]
  have hfilter := hproduct.filter fun p =>
    KeysEqual (p.2.keyIn rightColumn) (p.1.keyIn leftColumn)
  have hmatch : ∀ p ∈ left.rows ×ˢ right.rows,
      decide (KeysEqual (p.2.keyIn rightColumn) (p.1.keyIn leftColumn))
        = decide (KeysEqual (p.1.keyIn leftColumn) (p.2.keyIn rightColumn)) := by
    intro p hp
    obtain ⟨hpl, hpr⟩ := List.mem_product.mp hp
    rw [decide_eq_decide, keysEqual_comm (hleft _ hpl) (hright _ hpr)]
  rw [List.filter_map, List.filter_congr hmatch] at hfilter
  exact hfilter

/-- The joined rows are those of the pairs the other way round, with the prefixes exchanged. -/
theorem map_swapped_joinedRow (hleft : left.ExactKeys leftColumn)
    (hright : right.ExactKeys rightColumn) :
    ((right.matchingPairs rightColumn left leftColumn).map fun p =>
        (joinedRow (p.1.keyIn rightColumn) rightColumn p.1 leftColumn p.2).swapped)
      = ((right.matchingPairs rightColumn left leftColumn).map Prod.swap).map fun p =>
          joinedRow (p.1.keyIn leftColumn) leftColumn p.1 rightColumn p.2 := by
  rw [List.map_map]
  refine List.map_congr_left fun p hp => ?_
  obtain ⟨hp, hequal⟩ := List.mem_filter.mp hp
  obtain ⟨hpr, hpl⟩ := List.mem_product.mp hp
  have hkey : p.1.keyIn rightColumn = p.2.keyIn leftColumn :=
    ((keysEqual_iff (hright _ hpr) (hleft _ hpl)).mp (of_decide_eq_true hequal)).2
  rw [swapped_joinedRow, hkey]
  rfl

end Swap

end Table

/-! ### Counting by classes -/

/-- The number that comes with a key, zero if there is none. -/
def sizeWithKey (sizes : List (Value × Nat)) (key : Value) : Nat :=
  ((sizes.find? (·.1 = key)).map (·.2)).getD 0

/-- Of keys that differ, one at most is a given key. -/
theorem sum_eq_sizeWithKey {sizes : List (Value × Nat)} (h : (sizes.map (·.1)).Nodup)
    (key : Value) :
    (sizes.map fun p => if p.1 = key then p.2 else 0).sum = sizeWithKey sizes key := by
  unfold sizeWithKey
  induction sizes with
  | nil => rfl
  | cons p rest ih =>
    rw [List.map_cons, List.nodup_cons] at h
    rw [List.map_cons, List.sum_cons, ih h.2, List.find?_cons]
    by_cases hkey : p.1 = key
    · have hnone : rest.find? (·.1 = key) = none := by
        rw [List.find?_eq_none]
        intro q hq hqkey
        exact h.1 (List.mem_map.mpr ⟨q, hq, (of_decide_eq_true hqkey).trans hkey.symm⟩)
      simp [hkey, hnone]
    · simp [hkey]

namespace Class

variable {ι : Type} {key : ι → Value} {seen : List ι} {classes : List (Class ι)} {c : Class ι}
  {i : ι}

/-- The keys of classes with the numbers of their items. -/
def sizes (key : ι → Value) (classes : List (Class ι)) : List (Value × Nat) :=
  classes.map fun c => (key c.first, c.members.length)

namespace Partition

theorem key_eq_first (h : Partition key seen classes)
    (hfloat : ∀ i ∈ seen, (key i).isFloat = false) (hc : c ∈ classes) (hi : i ∈ c.members) :
    key i = key c.first := by
  have htogether : Together classes i c.first := ⟨c, hc, hi, List.mem_cons_self⟩
  exact (h.together_iff_of_not_float hfloat (h.mem_seen hc hi) (h.first_mem hc)).mp htogether

/-- A sum over all items of something that depends on their keys is one over the classes. -/
theorem sum_map_key (h : Partition key seen classes)
    (hfloat : ∀ i ∈ seen, (key i).isFloat = false) (f : Value → Nat) :
    (seen.map fun i => f (key i)).sum = ((sizes key classes).map fun p => p.2 * f p.1).sum := by
  have hclass : ∀ c ∈ classes,
      (c.members.map fun i => f (key i)).sum = c.members.length * f (key c.first) := by
    intro c hc
    rw [List.map_congr_left fun i hi => congrArg f (h.key_eq_first hfloat hc hi), List.map_const',
      List.sum_replicate_nat]
  rw [← (h.covers.map fun i => f (key i)).sum_eq, List.map_flatMap, List.flatMap_def,
    List.sum_flatten, List.map_map, sizes, List.map_map]
  exact congrArg List.sum (List.map_congr_left hclass)

theorem nodup_keys (h : Partition key seen classes)
    (hfloat : ∀ i ∈ seen, (key i).isFloat = false) : ((sizes key classes).map (·.1)).Nodup := by
  rw [sizes, List.map_map, List.Nodup, List.pairwise_map]
  refine h.apart.imp_of_mem fun {c d} hc hd hapart heq => ?_
  have hmatch : (key c.first).sameKey (key d.first) = true :=
    (Value.sameKey_iff_eq (hfloat _ (h.first_mem hc)) (hfloat _ (h.first_mem hd))).mpr heq
  cases hmatch.symm.trans (hapart d.first List.mem_cons_self)

/-- The items with a key are those of its class. -/
theorem countP_key (h : Partition key seen classes)
    (hfloat : ∀ i ∈ seen, (key i).isFloat = false) (k : Value) :
    seen.countP (fun i => key i = k) = sizeWithKey (sizes key classes) k := by
  have hclass : ∀ c ∈ classes, c.members.countP (fun i => key i = k)
      = if key c.first = k then c.members.length else 0 := by
    intro c hc
    by_cases hk : key c.first = k
    · rw [if_pos hk, List.countP_eq_length]
      exact fun i hi => decide_eq_true ((h.key_eq_first hfloat hc hi).trans hk)
    · rw [if_neg hk, List.countP_eq_zero]
      intro i hi hik
      exact hk ((h.key_eq_first hfloat hc hi).symm.trans (of_decide_eq_true hik))
  rw [← sum_eq_sizeWithKey (h.nodup_keys hfloat), ← h.covers.countP_eq, List.countP_flatMap, sizes,
    List.map_map]
  exact congrArg List.sum (List.map_congr_left hclass)

end Partition

end Class

namespace Table

variable {leftColumn rightColumn column : String} {left right t : Table}

/-- The keys of the groups of a table with the numbers of their rows. -/
def groupSizes (t : Table) : List (Value × Nat) :=
  (t.groups.getD []).map fun g => (g.key, (t.groupRows g).length)

/-- The same before the table is grouped. -/
def classSizes (column : String) (t : Table) : List (Value × Nat) :=
  Class.sizes (Row.keyIn column) (t.classes column)

theorem exists_groupSizes (h : ∀ row ∈ t.rows, row.contains column = true) :
    ∃ g, t.group column = .ok g ∧ g.groupSizes = t.classSizes column := by
  refine ⟨_, group_eq_classes h, ?_⟩
  have hspans := congrArg (List.map fun b : Bucket => (b.1, b.2.length))
    (map_groups_ofBuckets ((t.classes column).map (bucketOf column id)))
  rw [List.map_map, List.map_map] at hspans
  simpa [groupSizes, classSizes, Class.sizes, ofBuckets, bucketOf, Function.comp_def] using hspans

theorem length_matchingPairs (left : Table) (leftColumn : String) (right : Table)
    (rightColumn : String) :
    (left.matchingPairs leftColumn right rightColumn).length
      = (left.rows.map fun l => right.rows.countP fun r =>
          KeysEqual (l.keyIn leftColumn) (r.keyIn rightColumn)).sum := by
  have hpairs : left.rows ×ˢ right.rows
      = left.rows.flatMap fun l => right.rows.map (Prod.mk l) := rfl
  rw [matchingPairs, hpairs, List.filter_flatMap, List.length_flatMap]
  refine congrArg List.sum (List.map_congr_left fun l _ => ?_)
  rw [List.filter_map, List.length_map, List.countP_eq_length_filter]
  rfl

/-- The number of rows that a key joins with: those that have it, unless it is missing. -/
def partners (right : Table) (rightColumn : String) (key : Value) : Nat :=
  if key.isMissing then 0 else right.rows.countP fun r => r.keyIn rightColumn = key

theorem countP_keysEqual (ht : t.ExactKeys column) {key : Value} (hkey : key.isFloat = false) :
    t.rows.countP (fun row => KeysEqual key (row.keyIn column)) = t.partners column key := by
  rw [partners]
  cases hmissing : key.isMissing with
  | true =>
    rw [if_pos rfl, List.countP_eq_zero]
    intro row _ h
    exact (of_decide_eq_true h).1 (Value.isMissing_iff.mp hmissing)
  | false =>
    have hne : key ≠ .missing := by
      intro h
      rw [Value.isMissing_iff.mpr h] at hmissing
      cases hmissing
    rw [if_neg Bool.false_ne_true]
    refine List.countP_congr fun row hrow => ?_
    rw [decide_eq_true_iff, decide_eq_true_iff, keysEqual_iff hkey (ht row hrow)]
    exact ⟨fun h => h.2.symm, fun h => ⟨hne, h.symm⟩⟩

/-- A sum over keys with their partners leaves out the missing key. -/
theorem sum_partners (hright : right.ExactKeys rightColumn) (sizes : List (Value × Nat)) :
    (sizes.map fun p => p.2 * right.partners rightColumn p.1).sum
      = ((sizes.filter (!·.1.isMissing)).map fun p =>
          p.2 * sizeWithKey (right.classSizes rightColumn) p.1).sum := by
  have hcount (key : Value) : right.rows.countP (fun r => r.keyIn rightColumn = key)
      = sizeWithKey (right.classSizes rightColumn) key :=
    (right.partition_classes rightColumn).countP_key hright key
  induction sizes with
  | nil => rfl
  | cons p rest ih =>
    rw [List.map_cons, List.sum_cons, ih, List.filter_cons, partners]
    cases p.1.isMissing with
    | true => simp
    | false => simp [hcount]

/-- The pairs are counted group by group: those of a key are the rows of its left group times those
of its right group. -/
theorem length_matchingPairs_eq (hleft : left.ExactKeys leftColumn)
    (hright : right.ExactKeys rightColumn) :
    (left.matchingPairs leftColumn right rightColumn).length
      = (((left.classSizes leftColumn).filter (!·.1.isMissing)).map fun p =>
          p.2 * sizeWithKey (right.classSizes rightColumn) p.1).sum := by
  have hpartners : left.rows.map (fun l => right.rows.countP fun r =>
        KeysEqual (l.keyIn leftColumn) (r.keyIn rightColumn))
      = left.rows.map fun l => right.partners rightColumn (l.keyIn leftColumn) :=
    List.map_congr_left fun l hl => countP_keysEqual hright (hleft l hl)
  rw [length_matchingPairs, hpartners, (left.partition_classes leftColumn).sum_map_key hleft]
  exact sum_partners hright _

/-- Where no key is a double, a join has as many rows as the groups of both tables say: for each key
but the missing one, the rows of its group on the left times those of its group on the right. If the
tables change places, the join has the same rows in another order, under names with the prefixes
exchanged. -/
theorem join_by_groups (hl : ∀ l ∈ left.rows, l.contains leftColumn = true)
    (hr : ∀ r ∈ right.rows, r.contains rightColumn = true) (hleft : left.ExactKeys leftColumn)
    (hright : right.ExactKeys rightColumn) :
    ∃ u w g h, left.join leftColumn right rightColumn = .ok u ∧
      right.join rightColumn left leftColumn = .ok w ∧
      left.group leftColumn = .ok g ∧ right.group rightColumn = .ok h ∧
      (g.groupSizes.map (·.1)).Nodup ∧ (h.groupSizes.map (·.1)).Nodup ∧
      u.rows.length = ((g.groupSizes.filter (!·.1.isMissing)).map fun p =>
        p.2 * sizeWithKey h.groupSizes p.1).sum ∧
      (w.rows.map Row.swapped).Perm u.rows := by
  obtain ⟨g, hg, hgsizes⟩ := exists_groupSizes hl
  obtain ⟨h, hh, hhsizes⟩ := exists_groupSizes hr
  refine ⟨_, _, g, h, join_eq hl hr, join_eq hr hl, hg, hh, ?_, ?_, ?_, ?_⟩
  · rw [hgsizes]
    exact (left.partition_classes leftColumn).nodup_keys hleft
  · rw [hhsizes]
    exact (right.partition_classes rightColumn).nodup_keys hright
  · rw [List.length_map, hgsizes, hhsizes]
    exact length_matchingPairs_eq hleft hright
  · rw [List.map_map]
    show ((right.matchingPairs rightColumn left leftColumn).map fun p =>
      (joinedRow (p.1.keyIn rightColumn) rightColumn p.1 leftColumn p.2).swapped).Perm _
    rw [map_swapped_joinedRow hleft hright]
    exact (matchingPairs_swap hleft hright).map _

/-- Orders by customer, one without a customer. -/
def orders : Table where
  rows :=
    [.ofList [("customer", .int 7), ("total", .int 10)],
      .ofList [("customer", .missing), ("total", .int 20)],
      .ofList [("customer", .int 7), ("total", .int 30)],
      .ofList [("customer", .int 8), ("total", .int 40)]]

/-- Addresses of customers, one without a customer. -/
def addresses : Table where
  rows :=
    [.ofList [("id", .int 7), ("city", .text "x")],
      .ofList [("id", .missing), ("city", .text "y")],
      .ofList [("id", .int 7), ("city", .text "z")],
      .ofList [("id", .int 9), ("city", .text "x")]]

theorem orders_join_addresses :
    (∀ l ∈ orders.rows, l.contains "customer" = true) ∧
    (∀ r ∈ addresses.rows, r.contains "id" = true) ∧
    orders.ExactKeys "customer" ∧ addresses.ExactKeys "id" ∧
    ∃ u w g h, orders.join "customer" addresses "id" = .ok u ∧
      addresses.join "id" orders "customer" = .ok w ∧
      orders.group "customer" = .ok g ∧ addresses.group "id" = .ok h ∧
      g.groupSizes = [(.int 7, 2), (.missing, 1), (.int 8, 1)] ∧
      h.groupSizes = [(.int 7, 2), (.missing, 1), (.int 9, 1)] ∧
      u.rows.length = 4 ∧ (w.rows.map Row.swapped).Perm u.rows := by
  have hl : ∀ l ∈ orders.rows, l.contains "customer" = true := by decide
  have hr : ∀ r ∈ addresses.rows, r.contains "id" = true := by decide
  have hleft : orders.ExactKeys "customer" := by
    unfold ExactKeys
    decide
  have hright : addresses.ExactKeys "id" := by
    unfold ExactKeys
    decide
  obtain ⟨u, w, g, h, hu, hw, hg, hh, -, -, hlength, hperm⟩ := join_by_groups hl hr hleft hright
  obtain rfl : g = ofBuckets ((orders.classes "customer").map (bucketOf "customer" id)) :=
    Except.ok.inj (hg.symm.trans (group_eq_classes hl))
  obtain rfl : h = ofBuckets ((addresses.classes "id").map (bucketOf "id" id)) :=
    Except.ok.inj (hh.symm.trans (group_eq_classes hr))
  exact ⟨hl, hr, hleft, hright, u, w, _, _, hu, hw, hg, hh, rfl, rfl, hlength, hperm⟩

end Table

end TablePipeline
