import TablePipeline.NameMap
import Mathlib.Data.List.Nodup
/-!
# Which names a map binds

A `NameSet` is determined by the names it contains (`NameSet.ext_contains`). The set of the names
that a map binds follows its operations: `nameSet_insert`, `nameSet_erase`, `nameSet_ofList`.
`NameMap.insertAll` binds several names, and `get?_insertAll` says what a look-up finds after it.
`NameMap.mapNames` moves bindings to other names, and loses none if no two names become the same
(`get?_mapNames`).
-/

namespace TablePipeline

/-- Of several bindings of a name the last one counts, and all of them hide those that were there
before. -/
theorem lookup_foldl_insertByName {α : Type u} (bindings acc : List (String × α)) (name : String) :
    (bindings.foldl (fun sorted e => insertByName e.1 e.2 sorted) acc).lookup name
      = (bindings.reverse.lookup name).or (acc.lookup name) := by
  induction bindings generalizing acc with
  | nil => rfl
  | cons e rest ih =>
    rw [List.foldl_cons, ih, lookup_insertByName, List.reverse_cons, List.lookup_append,
      Option.or_assoc, lookup_cons_eq, List.lookup_nil]
    by_cases h : name = e.1
    · rw [if_pos h, if_pos h, Option.some_or]
    · rw [if_neg h, if_neg h, Option.none_or]

theorem lookup_sortByName {α : Type u} (bindings : List (String × α)) (name : String) :
    (sortByName bindings).lookup name = bindings.reverse.lookup name := by
  rw [sortByName, lookup_foldl_insertByName, List.lookup_nil, Option.or_none]

theorem mem_of_mem_sortByName {α : Type u} {bindings : List (String × α)} {e : String × α}
    (h : e ∈ sortByName bindings) : e ∈ bindings := by
  suffices hfold : ∀ acc : List (String × α),
      e ∈ bindings.foldl (fun sorted e => insertByName e.1 e.2 sorted) acc →
        e ∈ bindings ∨ e ∈ acc from
    (hfold [] h).resolve_right nofun
  clear h
  induction bindings with
  | nil => exact fun _ h => .inr h
  | cons b rest ih =>
    intro acc h
    rcases ih _ h with h | h
    · exact .inl (List.mem_cons_of_mem _ h)
    · rcases mem_of_mem_insertByName h with rfl | h
      · exact .inl List.mem_cons_self
      · exact .inr h

/-- Bindings that are sorted already stay as they are. -/
theorem sortByName_eq_self {α : Type u} {bindings : List (String × α)}
    (h : SortedByName bindings) : sortByName bindings = bindings := by
  refine eq_of_lookup_eq (sortedByName_sortByName bindings) h fun name => ?_
  rw [lookup_sortByName]
  induction bindings with
  | nil => rfl
  | cons e rest ih =>
    obtain ⟨he, hrest⟩ := List.pairwise_cons.mp h
    rw [List.reverse_cons, List.lookup_append, ih hrest, lookup_cons_eq, lookup_cons_eq,
      List.lookup_nil]
    by_cases hn : name = e.1
    · rw [if_pos hn, if_pos hn, hn, lookup_eq_none_of_lt he, Option.none_or]
    · rw [if_neg hn, if_neg hn, Option.or_none]

theorem lookup_isSome_iff {α : Type u} {bindings : List (String × α)} {name : String} :
    (bindings.lookup name).isSome = true ↔ name ∈ bindings.map (·.1) := by
  induction bindings with
  | nil => simp
  | cons e rest ih =>
    rw [lookup_cons_eq, List.map_cons, List.mem_cons, ← ih]
    by_cases h : name = e.1 <;> simp [h]

theorem nodup_of_sorted {α : Type u} {sorted : List (String × α)} (h : SortedByName sorted) :
    (sorted.map (·.1)).Nodup := by
  rw [List.Nodup, List.pairwise_map]
  refine h.imp fun {a b} hlt heq => ?_
  rw [heq] at hlt
  exact String.lt_irrefl _ hlt

namespace NameMap

variable {α : Type u} {β : Type v} {m : NameMap α}

theorem mem_names {name : String} : name ∈ m.names ↔ m.contains name = true :=
  lookup_isSome_iff.symm

theorem mem_entries_of_get? {name : String} {value : α} (h : m.get? name = some value) :
    (name, value) ∈ m.entries := by
  obtain ⟨entries, sorted⟩ := m
  change entries.lookup name = some value at h
  change (name, value) ∈ entries
  clear sorted
  induction entries with
  | nil => cases h
  | cons e rest ih =>
    rw [lookup_cons_eq] at h
    split at h
    · next hname =>
      cases h
      exact hname ▸ List.mem_cons_self
    · exact List.mem_cons_of_mem _ (ih h)

theorem contains_insert {name key : String} {value : α} :
    (m.insert name value).contains key = (decide (key = name) || m.contains key) := by
  rw [contains, get?_insert, contains]
  by_cases h : key = name <;> simp [h]

theorem contains_erase {name key : String} :
    (m.erase name).contains key = (!decide (key = name) && m.contains key) := by
  rw [contains, get?_erase, contains]
  by_cases h : key = name <;> simp [h]

theorem contains_nameSet {name : String} : m.nameSet.contains name = m.contains name := by
  rw [contains, nameSet, get?_mapValues, contains, Option.isSome_map]

theorem contains_ofList {bindings : List (String × α)} {name : String} :
    (ofList bindings).contains name = true ↔ name ∈ bindings.map (·.1) := by
  rw [contains, get?, ofList, lookup_sortByName, lookup_isSome_iff, List.map_reverse,
    List.mem_reverse]

/-- The last binding of a name counts. -/
theorem get?_ofList_of_last {before after : List (String × α)} {name : String} {value : α}
    (h : name ∉ after.map (·.1)) :
    (ofList (before ++ (name, value) :: after)).get? name = some value := by
  have hafter : after.reverse.lookup name = none := by
    rw [← Option.not_isSome_iff_eq_none, lookup_isSome_iff, List.map_reverse, List.mem_reverse]
    exact h
  rw [get?, ofList, lookup_sortByName, List.reverse_append, List.reverse_cons, List.lookup_append,
    List.lookup_append, hafter, lookup_cons_eq, if_pos rfl]
  rfl

/-- Without a name bound twice, a look-up finds the one binding of the name. -/
theorem get?_ofList_eq_some_iff {bindings : List (String × α)} (h : (bindings.map (·.1)).Nodup)
    {name : String} {value : α} :
    (ofList bindings).get? name = some value ↔ (name, value) ∈ bindings := by
  constructor
  · intro hget
    exact mem_of_mem_sortByName (mem_entries_of_get? hget)
  · intro hmem
    obtain ⟨before, after, rfl⟩ := List.append_of_mem hmem
    apply get?_ofList_of_last
    rw [List.map_append, List.map_cons] at h
    exact (List.nodup_cons.mp (List.nodup_append.mp h).2.1).1

theorem nodup_names (m : NameMap α) : m.names.Nodup := nodup_of_sorted m.sorted

theorem names_ofList_perm {bindings : List (String × α)} (h : (bindings.map (·.1)).Nodup) :
    (ofList bindings).names.Perm (bindings.map (·.1)) :=
  (List.perm_ext_iff_of_nodup (ofList bindings).nodup_names h).mpr fun _ =>
    mem_names.trans contains_ofList

theorem ofList_entries (m : NameMap α) : ofList m.entries = m := by
  obtain ⟨entries, sorted⟩ := m
  simp only [ofList, sortByName_eq_self sorted]

theorem get?_eq_some_iff {name : String} {value : α} :
    m.get? name = some value ↔ (name, value) ∈ m.entries := by
  have h : (ofList m.entries).get? name = some value ↔ (name, value) ∈ m.entries :=
    get?_ofList_eq_some_iff m.nodup_names
  rwa [ofList_entries] at h

theorem length_names_erase {name : String} (h : m.contains name = true) :
    (m.erase name).names.length = m.names.length - 1 := by
  have hnames : (m.erase name).names = m.names.erase name := by
    rw [m.nodup_names.erase_eq_filter, names, names, erase, List.filter_map]
    congr 1
    exact List.filter_congr fun e _ => by by_cases he : e.1 = name <;> simp [he]
  rw [hnames, List.length_erase_of_mem (mem_names.mpr h)]

/-- The bindings under the names that `f` gives them. Those that it gives none are left out. -/
def mapNames (f : String → Option String) (m : NameMap α) : NameMap α :=
  .ofList (m.entries.filterMap fun e => (f e.1).map (·, e.2))

/-- If `f` gives no two bindings the same name, they are found under their new names. -/
theorem get?_mapNames {f : String → Option String}
    (hf : ∀ a b c, f a = some c → f b = some c → a = b) {name key : String}
    (hkey : f name = some key) : (m.mapNames f).get? key = m.get? name := by
  have hnames : (m.entries.filterMap fun e => (f e.1).map (·, e.2)).map (·.1)
      = m.names.filterMap f := by
    simp [names, List.map_filterMap, List.filterMap_map, Function.comp_def]
  have hnodup : (m.names.filterMap f).Nodup :=
    m.nodup_names.filterMap fun a b c ha hb => hf a b c ha hb
  rw [← hnames] at hnodup
  refine Option.ext fun v => ?_
  rw [mapNames, get?_ofList_eq_some_iff hnodup, get?_eq_some_iff, List.mem_filterMap]
  constructor
  · intro h
    obtain ⟨e, he, h⟩ := h
    obtain ⟨key', hkey', heq⟩ := Option.map_eq_some_iff.mp h
    cases heq
    have hname : e.1 = name := hf _ _ _ hkey' hkey
    exact hname ▸ he
  · intro h
    exact ⟨(name, v), h, by rw [hkey, Option.map_some]⟩

/-- Binds the names of a list from left to right. -/
def insertAll (m : NameMap α) (bindings : List (String × α)) : NameMap α :=
  bindings.foldl (fun m b => m.insert b.1 b.2) m

theorem insertAll_append (m : NameMap α) (first second : List (String × α)) :
    m.insertAll (first ++ second) = (m.insertAll first).insertAll second :=
  List.foldl_append

theorem entries_insertAll (m : NameMap α) (bindings : List (String × α)) :
    (m.insertAll bindings).entries
      = bindings.foldl (fun sorted e => insertByName e.1 e.2 sorted) m.entries := by
  induction bindings generalizing m with
  | nil => rfl
  | cons b rest ih => exact ih (m.insert b.1 b.2)

theorem get?_insertAll (m : NameMap α) (bindings : List (String × α)) (name : String) :
    (m.insertAll bindings).get? name = (bindings.reverse.lookup name).or (m.get? name) := by
  rw [get?, entries_insertAll, lookup_foldl_insertByName, get?]

end NameMap

namespace NameSet

theorem contains_ofNames {names : List String} {name : String} :
    (ofNames names).contains name = true ↔ name ∈ names := by
  rw [ofNames, NameMap.contains_ofList, List.map_map]
  simp [Function.comp_def]

/-- Sets that contain the same names are equal. -/
theorem ext_contains {s t : NameSet} (h : ∀ name, s.contains name = t.contains name) : s = t := by
  refine NameMap.ext_get? fun name => ?_
  have hname := h name
  rw [NameMap.contains, NameMap.contains] at hname
  cases hs : s.get? name <;> cases ht : t.get? name <;> simp_all

end NameSet

namespace NameMap

variable {α : Type u} {m : NameMap α}

theorem nameSet_insert {name : String} {value : α} :
    (m.insert name value).nameSet = m.nameSet.insert name () :=
  NameSet.ext_contains fun key => by
    rw [contains_nameSet, contains_insert, contains_insert, contains_nameSet]

theorem nameSet_erase {name : String} : (m.erase name).nameSet = m.nameSet.erase name :=
  NameSet.ext_contains fun key => by
    rw [contains_nameSet, contains_erase, contains_erase, contains_nameSet]

theorem nameSet_ofList {bindings : List (String × α)} :
    (ofList bindings).nameSet = .ofNames (bindings.map (·.1)) :=
  NameSet.ext_contains fun name => by
    rw [contains_nameSet, Bool.eq_iff_iff, contains_ofList, NameSet.contains_ofNames]

theorem names_nameSet : m.nameSet.names = m.names := by
  rw [names, nameSet, mapValues, List.map_map]
  rfl

theorem ofNames_names : NameSet.ofNames m.names = m.nameSet :=
  NameSet.ext_contains fun name => by
    rw [Bool.eq_iff_iff, NameSet.contains_ofNames, mem_names, contains_nameSet]

/-- Maps bind the same names if and only if they list the same names. -/
theorem nameSet_eq_iff {m₁ m₂ : NameMap α} : m₁.nameSet = m₂.nameSet ↔ m₁.names = m₂.names := by
  constructor
  · intro h
    rw [← names_nameSet, h, names_nameSet]
  · intro h
    rw [← ofNames_names, h, ofNames_names]

end NameMap

namespace NameSet

theorem nameSet_self (s : NameSet) : s.nameSet = s :=
  ext_contains fun _ => NameMap.contains_nameSet

theorem ofNames_names (s : NameSet) : ofNames s.names = s :=
  NameMap.ofNames_names.trans s.nameSet_self

end NameSet

end TablePipeline
