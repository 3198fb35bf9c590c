import TablePipeline.Proofs.Grouping
/-!
# Groups and the order of the rows

An integer and a double match if they are equal as doubles. Two large integers may round to one
double, so that both match it though they do not match each other: it blurs them
(`Value.Blurred`). Where no key is NaN and no double blurs two integers, matching is an equivalence,
and the groups are the same for every order of the rows. Where one does, they are not
(`Table.group_order_free_iff`).
-/

namespace TablePipeline

/-! ### Matching as a relation -/

namespace Binary64

theorem compare?_eq_iff {x y : Float} :
    compare? x y = some .eq ↔ ∃ r, rank? x = some r ∧ rank? y = some r := by
  unfold compare?
  cases rank? x with
  | none => simp
  | some a =>
    cases rank? y with
    | none => simp
    | some b => simpa using eq_comm

theorem exists_rank? {x : Float} (h : isNaN x = false) : ∃ r, rank? x = some r := by
  unfold rank?
  rw [h]
  exact ⟨_, rfl⟩

end Binary64

namespace Value

variable {a b c : Value} {keys : List Value}

/-- The place of a number among the doubles. An integer is rounded to a double first. -/
def rank? (v : Value) : Option Int := v.toFloat?.bind Binary64.rank?

/-- Keys match if they are equal, or if one is a double and both have the same place. -/
theorem sameKey_iff_rank : a.sameKey b = true ↔
    a = b ∧ a.isNaN = false ∨
      (a.isFloat = true ∨ b.isFloat = true) ∧ ∃ r, a.rank? = some r ∧ b.rank? = some r := by
  rw [sameKey_iff]
  cases a <;> cases b <;>
    simp [isMissing, order?, toFloat?, isNaN, isFloat, rank?, Int64.toInt_inj,
      Binary64.compare?_eq_iff]
  -- Two doubles are left: equal ones have the same place.
  intro heq hnan
  obtain ⟨r, hr⟩ := Binary64.exists_rank? hnan
  exact ⟨r, hr, heq ▸ hr⟩

theorem sameKey_self (h : a.isNaN = false) : a.sameKey a = true := sameKey_iff_rank.mpr (.inl ⟨rfl, h⟩)

theorem exists_int_of_rank? {r : Int} (h : a.rank? = some r) (hfloat : a.isFloat = false) :
    ∃ n, a = .int n := by
  cases a with
  | int n => exact ⟨n, rfl⟩
  | float x => cases hfloat
  | missing | bool _ | text _ => cases h

/-- Among the keys a double matches two integers that differ. -/
def Blurred (keys : List Value) : Prop :=
  ∃ (m n : Int64) (x : Float), .int m ∈ keys ∧ .int n ∈ keys ∧ .float x ∈ keys ∧ m ≠ n ∧
    (int m).sameKey (.float x) = true ∧ (int n).sameKey (.float x) = true

/-- What two keys have in common through a third one, they have in common, unless two integers are
blurred. -/
theorem sameKey_trans (hclear : ¬ Blurred keys) (ha : a ∈ keys) (hb : b ∈ keys) (hc : c ∈ keys)
    (hab : a.sameKey b = true) (hbc : b.sameKey c = true) : a.sameKey c = true := by
  obtain ⟨heq, -⟩ | ⟨hfloat, r, har, hbr⟩ := sameKey_iff_rank.mp hab
  · exact heq ▸ hbc
  obtain ⟨heq, -⟩ | ⟨hfloat', s, hbs, hcs⟩ := sameKey_iff_rank.mp hbc
  · exact heq ▸ hab
  have hcr : c.rank? = some r := by rw [hcs, ← hbs, hbr]
  by_cases hends : a.isFloat = true ∨ c.isFloat = true
  · exact sameKey_iff_rank.mpr (.inr ⟨hends, r, har, hcr⟩)
  -- Both ends are integers, so that the key between them is a double.
  simp only [not_or, Bool.not_eq_true] at hends
  obtain ⟨m, rfl⟩ := exists_int_of_rank? har hends.1
  obtain ⟨n, rfl⟩ := exists_int_of_rank? hcr hends.2
  by_cases hmn : m = n
  · exact hmn ▸ sameKey_self rfl
  · cases b with
    | float x => exact absurd ⟨m, n, x, ha, hc, hb, hmn, hab, sameKey_comm.trans hbc⟩ hclear
    | missing | bool _ | int _ | text _ =>
      rcases hfloat with h | h
      · cases h
      · cases h

end Value

/-! ### Rows in groups -/

namespace Row

theorem keyIn_eq_of_indexedBy_eq {column : String} {r s : Row}
    (h : r.indexedBy column = s.indexedBy column) : r.keyIn column = s.keyIn column := by
  have hget := congrArg (NameMap.get? · indexColumn) h
  simp only [get?_indexedBy] at hget
  exact Option.some.inj hget

end Row

namespace Table

variable {t u : Table} {column : String} {bs : List Bucket} {r s : Row}

/-- The row lies in a group of the table. -/
def InGroup (u : Table) (g : Group) (row : Row) : Prop :=
  (∃ groups, u.groups = some groups ∧ g ∈ groups) ∧ row ∈ u.groupRows g

/-- The rows lie in one group. -/
def Together (u : Table) (r s : Row) : Prop := ∃ g, u.InGroup g r ∧ u.InGroup g s

theorem map_groups_ofBuckets (bs : List Bucket) :
    (groupsOf 0 bs).map (fun g => (g.key, (ofBuckets bs).groupRows g)) = bs :=
  map_groupsOf bs [] _

theorem inGroup_ofBuckets {g : Group} :
    (ofBuckets bs).InGroup g r ↔ g ∈ groupsOf 0 bs ∧ r ∈ (ofBuckets bs).groupRows g := by
  constructor
  · intro h
    obtain ⟨⟨groups, hgroups, hg⟩, hr⟩ := h
    cases hgroups
    exact ⟨hg, hr⟩
  · intro h
    exact ⟨⟨_, rfl, h.1⟩, h.2⟩

theorem exists_inGroup_iff {P : List Row → Prop} :
    (∃ g ∈ groupsOf 0 bs, P ((ofBuckets bs).groupRows g)) ↔ ∃ b ∈ bs, P b.2 := by
  have hmap := map_groups_ofBuckets bs
  constructor
  · intro h
    obtain ⟨g, hg, hP⟩ := h
    have hb := List.mem_map_of_mem (f := fun g => (g.key, (ofBuckets bs).groupRows g)) hg
    rw [hmap] at hb
    exact ⟨_, hb, hP⟩
  · intro h
    obtain ⟨b, hb, hP⟩ := h
    rw [← hmap] at hb
    obtain ⟨g, hg, rfl⟩ := List.mem_map.mp hb
    exact ⟨g, hg, hP⟩

theorem together_ofBuckets : (ofBuckets bs).Together r s ↔ ∃ b ∈ bs, r ∈ b.2 ∧ s ∈ b.2 := by
  rw [← exists_inGroup_iff (P := fun rows => r ∈ rows ∧ s ∈ rows)]
  constructor
  · intro h
    obtain ⟨g, hr, hs⟩ := h
    rw [inGroup_ofBuckets] at hr hs
    exact ⟨g, hr.1, hr.2, hs.2⟩
  · intro h
    obtain ⟨g, hg, hr, hs⟩ := h
    exact ⟨g, inGroup_ofBuckets.mpr ⟨hg, hr⟩, inGroup_ofBuckets.mpr ⟨hg, hs⟩⟩

/-- Buckets without a row in common make groups without one. -/
theorem inGroup_unique (hdisjoint : bs.Pairwise fun b c => b.2.Disjoint c.2) {g h : Group}
    (hg : (ofBuckets bs).InGroup g r) (hh : (ofBuckets bs).InGroup h r) : g = h := by
  rw [inGroup_ofBuckets] at hg hh
  rw [← map_groups_ofBuckets bs, List.pairwise_map] at hdisjoint
  have : Std.Symm fun g h : Group =>
      ((ofBuckets bs).groupRows g).Disjoint ((ofBuckets bs).groupRows h) :=
    ⟨fun _ _ h _ hr hs => h hs hr⟩
  by_contra hne
  exact hdisjoint.forall hg.1 hh.1 hne hg.2 hh.2

section Classes

variable {classes : List (Class Row)}

/-- The key of a class matches that of each of its rows, the first one included. -/
theorem sameKey_of_mem (h : Class.Partition (Row.keyIn column) t.rows classes)
    (hnan : ∀ row ∈ t.rows, (row.keyIn column).isNaN = false) {c : Class Row} (hc : c ∈ classes)
    (hr : r ∈ c.members) : (c.first.keyIn column).sameKey (r.keyIn column) = true := by
  rcases h.key_of_mem hc hr with rfl | hmatch
  · exact Value.sameKey_self (hnan _ (h.mem_seen hc hr))
  · exact hmatch

/-- A row that looks like one of a class once it is indexed is in that class. -/
theorem mem_members_of_indexedBy (h : Class.Partition (Row.keyIn column) t.rows classes)
    (hnan : ∀ row ∈ t.rows, (row.keyIn column).isNaN = false) {c : Class Row} (hc : c ∈ classes)
    (hr : r ∈ t.rows) (hmem : r.indexedBy column ∈ c.members.map (Row.indexedBy column)) :
    r ∈ c.members := by
  obtain ⟨k, hk, heq⟩ := List.mem_map.mp hmem
  have hkey := Row.keyIn_eq_of_indexedBy_eq heq
  obtain ⟨d, hd, hrd⟩ := h.exists_class hr
  have hcr := sameKey_of_mem h hnan hc hk
  have hdk := sameKey_of_mem h hnan hd hrd
  rw [hkey] at hcr
  rw [← hkey] at hdk
  obtain rfl := h.eq_of_matched hc hd hk hrd hcr hdk
  exact hrd

/-- Classes have no rows in common, not even rows that look alike once they are indexed. -/
theorem disjoint_indexedBy (h : Class.Partition (Row.keyIn column) t.rows classes)
    (hnan : ∀ row ∈ t.rows, (row.keyIn column).isNaN = false) :
    classes.Pairwise fun c d => (c.members.map (Row.indexedBy column)).Disjoint
      (d.members.map (Row.indexedBy column)) := by
  refine h.apart.imp_of_mem fun {c d} hc hd hapart r hrc hrd => ?_
  obtain ⟨k, hk, rfl⟩ := List.mem_map.mp hrd
  have hkc := mem_members_of_indexedBy h hnan hc (h.mem_seen hd hk) hrc
  have hmatch := sameKey_of_mem h hnan hc hkc
  rw [hapart k hk] at hmatch
  cases hmatch

end Classes

/-- Rows whose keys are not NaN are in one group each, and share it with the rows of their class. -/
theorem exists_group (hcolumn : ∀ row ∈ t.rows, row.contains column = true)
    (hnan : ∀ row ∈ t.rows, (row.keyIn column).isNaN = false) :
    ∃ u, t.group column = .ok u ∧
      (∀ r ∈ t.rows, ∃! g, u.InGroup g (r.indexedBy column)) ∧
      ∀ r ∈ t.rows, ∀ s ∈ t.rows, u.Together (r.indexedBy column) (s.indexedBy column) ↔
        Class.Together (t.classes column) r s := by
  have hgroup := group_eq_classes hcolumn
  have hpartition := t.partition_classes column
  generalize t.classes column = classes at hgroup hpartition ⊢
  refine ⟨_, hgroup, fun r hr => ?_, fun r hr s hs => ?_⟩
  · obtain ⟨c, hc, hrc⟩ := hpartition.exists_class hr
    obtain ⟨g, hg, hrg⟩ := (exists_inGroup_iff (P := (r.indexedBy column ∈ ·))).mpr
      ⟨bucketOf column id c, List.mem_map_of_mem hc, List.mem_map_of_mem hrc⟩
    have hin := inGroup_ofBuckets.mpr ⟨hg, hrg⟩
    refine ⟨g, hin, fun h hh => ?_⟩
    exact inGroup_unique (List.pairwise_map.mpr (disjoint_indexedBy hpartition hnan)) hh hin
  · rw [together_ofBuckets]
    constructor
    · intro h
      obtain ⟨b, hb, hrb, hsb⟩ := h
      obtain ⟨c, hc, rfl⟩ := List.mem_map.mp hb
      exact ⟨c, hc, mem_members_of_indexedBy hpartition hnan hc hr hrb,
        mem_members_of_indexedBy hpartition hnan hc hs hsb⟩
    · intro h
      obtain ⟨c, hc, hrc, hsc⟩ := h
      exact ⟨bucketOf column id c, List.mem_map_of_mem hc, List.mem_map_of_mem hrc,
        List.mem_map_of_mem hsc⟩

/-! ### Orders of the rows -/

/-- Where matching is an equivalence, the rows in one class are those whose keys match, whatever
their order. -/
theorem together_classes_iff {t' : Table} (hperm : t'.rows.Perm t.rows)
    (hnan : ∀ row ∈ t.rows, (row.keyIn column).isNaN = false)
    (hclear : ¬ Value.Blurred (t.rows.map (Row.keyIn column))) (hr : r ∈ t.rows)
    (hs : s ∈ t.rows) :
    Class.Together (t'.classes column) r s ↔
      (r.keyIn column).sameKey (s.keyIn column) = true := by
  have hkey {e : Row} (he : e ∈ t'.rows) : e.keyIn column ∈ t.rows.map (Row.keyIn column) :=
    List.mem_map_of_mem (hperm.mem_iff.mp he)
  apply (t'.partition_classes column).together_iff_sameKey
  · exact fun e he => Value.sameKey_self (hnan e (hperm.mem_iff.mp he))
  · exact fun a ha b hb c hc => Value.sameKey_trans hclear (hkey ha) (hkey hb) (hkey hc)
  · exact hperm.mem_iff.mpr hr
  · exact hperm.mem_iff.mpr hs

/-- With a double first, all rows that it matches are in its class. -/
theorem together_of_double_first {rows : List Row} {d : Row} {x : Float}
    (hd : d.keyIn column = .float x) (hr : r ∈ rows) (hs : s ∈ rows)
    (hrx : (r.keyIn column).sameKey (.float x) = true)
    (hsx : (s.keyIn column).sameKey (.float x) = true) :
    Class.Together (classes column { rows := d :: rows }) r s := by
  rw [classes, Class.ofItems_cons]
  have hmem {e : Row} (he : e ∈ rows) (hex : (e.keyIn column).sameKey (.float x) = true) :
      e ∈ d :: rows.filter fun e => (d.keyIn column).sameKey (e.keyIn column) := by
    rw [hd]
    exact List.mem_cons_of_mem _ (List.mem_filter.mpr ⟨he, Value.sameKey_comm.trans hex⟩)
  exact ⟨_, List.mem_cons_self, hmem hr hrx, hmem hs hsx⟩

/-- A row that comes first has only rows in its class that its own key matches. -/
theorem sameKey_of_together_first {rows : List Row} (hnan : (r.keyIn column).isNaN = false)
    (h : Class.Together (classes column { rows := r :: rows }) r s) :
    (r.keyIn column).sameKey (s.keyIn column) = true := by
  have hself := Value.sameKey_self hnan
  rw [classes, Class.ofItems_cons] at h
  obtain ⟨c, hc, hrc, hsc⟩ := h
  rcases List.mem_cons.mp hc with rfl | hc
  · rcases List.mem_cons.mp hsc with rfl | hsc
    · exact hself
    · exact (List.mem_filter.mp hsc).2
  · -- The later classes hold only rows that the first key does not match.
    have hleft := (Class.Partition.ofItems _ _).mem_seen hc hrc
    have hno := (List.mem_filter.mp hleft).2
    rw [hself] at hno
    cases hno

/-- Of two integers that a double blurs, the double coming first makes one class, and one of the
integers coming first makes two. -/
theorem exists_orders_of_blurred (hnan : ∀ row ∈ t.rows, (row.keyIn column).isNaN = false)
    (h : Value.Blurred (t.rows.map (Row.keyIn column))) :
    ∃ r ∈ t.rows, ∃ s ∈ t.rows,
      (∃ t' : Table, t'.rows.Perm t.rows ∧ Class.Together (t'.classes column) r s) ∧
      ∃ t' : Table, t'.rows.Perm t.rows ∧ ¬ Class.Together (t'.classes column) r s := by
  obtain ⟨m, n, x, hm, hn, hx, hne, hmx, hnx⟩ := h
  obtain ⟨r, hr, hrm⟩ := List.mem_map.mp hm
  obtain ⟨s, hs, hsn⟩ := List.mem_map.mp hn
  obtain ⟨d, hd, hdx⟩ := List.mem_map.mp hx
  have hmem {e : Row} {k : Int64} (he : e ∈ t.rows) (hek : e.keyIn column = .int k) :
      e ∈ t.rows.erase d := by
    apply (List.mem_erase_of_ne _).mpr he
    intro heq
    rw [heq, hdx] at hek
    cases hek
  refine ⟨r, hr, s, hs, ⟨{ rows := d :: t.rows.erase d }, (List.perm_cons_erase hd).symm, ?_⟩,
    { rows := r :: t.rows.erase r }, (List.perm_cons_erase hr).symm, fun hinteger => ?_⟩
  · apply together_of_double_first hdx (hmem hr hrm) (hmem hs hsn)
    · rw [hrm]
      exact hmx
    · rw [hsn]
      exact hnx
  · have hmatch := sameKey_of_together_first (hnan r hr) hinteger
    rw [hrm, hsn, Value.sameKey_iff_eq rfl rfl] at hmatch
    exact hne (Value.int.inj hmatch)

/-- Where no key is NaN, each row is in one group, and which rows share a group is the same for all
orders of the rows if and only if no double matches two different integers. -/
theorem group_order_free_iff (hcolumn : ∀ row ∈ t.rows, row.contains column = true)
    (hnan : ∀ row ∈ t.rows, (row.keyIn column).isNaN = false) :
    ∃ u, t.group column = .ok u ∧
      (∀ r ∈ t.rows, ∃! g, u.InGroup g (r.indexedBy column)) ∧
      ((∀ t' : Table, t'.rows.Perm t.rows → ∃ u', t'.group column = .ok u' ∧
        ∀ r ∈ t.rows, ∀ s ∈ t.rows,
          (u.Together (r.indexedBy column) (s.indexedBy column) ↔
            u'.Together (r.indexedBy column) (s.indexedBy column))) ↔
        ¬ Value.Blurred (t.rows.map (Row.keyIn column))) := by
  obtain ⟨u, hgroup, hunique, htogether⟩ := exists_group hcolumn hnan
  -- What `exists_group` says of the table holds of its rows in any other order.
  have hgroups {t' : Table} (hperm : t'.rows.Perm t.rows) :
      ∃ u', t'.group column = .ok u' ∧ ∀ r ∈ t.rows, ∀ s ∈ t.rows,
        u'.Together (r.indexedBy column) (s.indexedBy column) ↔
          Class.Together (t'.classes column) r s := by
    obtain ⟨u', hgroup', -, htogether'⟩ := exists_group (t := t')
      (fun row hrow => hcolumn row (hperm.mem_iff.mp hrow))
      (fun row hrow => hnan row (hperm.mem_iff.mp hrow))
    exact ⟨u', hgroup', fun r hr s hs =>
      htogether' r (hperm.mem_iff.mpr hr) s (hperm.mem_iff.mpr hs)⟩
  refine ⟨u, hgroup, hunique, ?_⟩
  constructor
  · intro hfree hblurred
    obtain ⟨r, hr, s, hs, ⟨t₁, hperm₁, hyes⟩, t₂, hperm₂, hno⟩ :=
      exists_orders_of_blurred hnan hblurred
    have hsame {t' : Table} (hperm : t'.rows.Perm t.rows) :
        Class.Together (t'.classes column) r s ↔
          u.Together (r.indexedBy column) (s.indexedBy column) := by
      obtain ⟨u', hgroup', hiff⟩ := hfree t' hperm
      obtain ⟨u'', hgroup'', htogether''⟩ := hgroups hperm
      cases hgroup'.symm.trans hgroup''
      exact (htogether'' r hr s hs).symm.trans (hiff r hr s hs).symm
    exact hno ((hsame hperm₂).mpr ((hsame hperm₁).mp hyes))
  · intro hclear t' hperm
    obtain ⟨u', hgroup', htogether'⟩ := hgroups hperm
    refine ⟨u', hgroup', fun r hr s hs => ?_⟩
    rw [htogether r hr s hs, htogether' r hr s hs,
      together_classes_iff .rfl hnan hclear hr hs, together_classes_iff hperm hnan hclear hr hs]

/-- A row with a key and a number. -/
def keyedRow (key : Value) (number : Int64) : Row := .ofList [("key", key), ("row", .int number)]

/-- Two integers that round to one double, and that double. -/
def neighbours : Table where
  rows := [keyedRow (.int 9007199254740992) 0, keyedRow (.int 9007199254740993) 1,
    keyedRow (.float 9007199254740992) 2]

theorem neighbours_blurred :
    (∀ row ∈ neighbours.rows, row.contains "key" = true) ∧
    (∀ row ∈ neighbours.rows, (row.keyIn "key").isNaN = false) ∧
    ∃ u, neighbours.group "key" = .ok u ∧
      (∀ r ∈ neighbours.rows, ∃! g, u.InGroup g (r.indexedBy "key")) ∧
      ¬ ∀ t' : Table, t'.rows.Perm neighbours.rows → ∃ u', t'.group "key" = .ok u' ∧
        ∀ r ∈ neighbours.rows, ∀ s ∈ neighbours.rows,
          (u.Together (r.indexedBy "key") (s.indexedBy "key") ↔
            u'.Together (r.indexedBy "key") (s.indexedBy "key")) := by
  have hcolumn : ∀ row ∈ neighbours.rows, row.contains "key" = true := by decide
  have hnan : ∀ row ∈ neighbours.rows, (row.keyIn "key").isNaN = false := by decide
  have hkeys : neighbours.rows.map (Row.keyIn "key")
      = [.int 9007199254740992, .int 9007199254740993, .float 9007199254740992] := rfl
  have hblurred : Value.Blurred (neighbours.rows.map (Row.keyIn "key")) := by
    rw [hkeys]
    exact ⟨9007199254740992, 9007199254740993, 9007199254740992, by simp, by simp, by simp,
      by decide, rfl, rfl⟩
  obtain ⟨u, hgroup, hunique, hfree⟩ := group_order_free_iff hcolumn hnan
  exact ⟨hcolumn, hnan, u, hgroup, hunique, fun h => hfree.mp h hblurred⟩

/-- The same rows with the double first. -/
def doubleFirst : Table where
  rows := [keyedRow (.float 9007199254740992) 2, keyedRow (.int 9007199254740992) 0,
    keyedRow (.int 9007199254740993) 1]

/-- The two integers are in one group if the double comes first, and in two if it comes last. -/
theorem neighbours_order_matters :
    (∀ row ∈ neighbours.rows, row.contains "key" = true ∧ (row.keyIn "key").isNaN = false) ∧
    doubleFirst.rows.Perm neighbours.rows ∧
    ∃ u u', neighbours.group "key" = .ok u ∧ doubleFirst.group "key" = .ok u' ∧
      ∃ r ∈ neighbours.rows, ∃ s ∈ neighbours.rows,
        ¬ u.Together (r.indexedBy "key") (s.indexedBy "key") ∧
        u'.Together (r.indexedBy "key") (s.indexedBy "key") := by
  let indexed (key : Value) (number : Int64) : Row :=
    .ofList [(indexColumn, key), ("row", .int number)]
  refine ⟨by decide, by decide,
    ofBuckets [(.int 9007199254740992, [indexed (.int 9007199254740992) 0,
      indexed (.float 9007199254740992) 2]),
      (.int 9007199254740993, [indexed (.int 9007199254740993) 1])],
    ofBuckets [(.float 9007199254740992, [indexed (.float 9007199254740992) 2,
      indexed (.int 9007199254740992) 0, indexed (.int 9007199254740993) 1])],
    rfl, rfl, keyedRow (.int 9007199254740992) 0, by decide,
    keyedRow (.int 9007199254740993) 1, by decide, ?_, ?_⟩
  · rw [together_ofBuckets]
    decide
  · rw [together_ofBuckets]
    decide

end Table

end TablePipeline
