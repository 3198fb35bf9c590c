/-!
# Maps from names

A `NameMap` binds names to values, each name once, and lists its bindings by name in code point
order. Two maps that bind the same names to the same values are therefore equal
(`NameMap.ext_get?`), and `get?_insert` and `get?_erase` say what each operation does to a
look-up. The list functions come first: they also serve where bindings are held in a plain list.
-/

namespace TablePipeline

/-- Binds `name` in a list sorted by name, in place of its old value if it has one. -/
def insertByName {α : Type u} (name : String) (value : α) :
    List (String × α) → List (String × α)
  | [] => [(name, value)]
  | e :: rest =>
    if name < e.1 then (name, value) :: e :: rest
    else if name = e.1 then (name, value) :: rest
    else e :: insertByName name value rest

/-- Binds the names of a list from left to right, so that the last binding of a name holds. -/
def sortByName {α : Type u} (bindings : List (String × α)) : List (String × α) :=
  bindings.foldl (fun sorted e => insertByName e.1 e.2 sorted) []

/-- The bindings are in strict order of their names. -/
abbrev SortedByName {α : Type u} (bindings : List (String × α)) : Prop :=
  bindings.Pairwise (fun a b => a.1 < b.1)

theorem name_lt_of_not_lt {a b : String} (h : ¬ a < b) (hne : a ≠ b) : b < a :=
  Classical.byContradiction fun hba =>
    hne (String.le_antisymm (String.not_lt.mp hba) (String.not_lt.mp h))

theorem mem_of_mem_insertByName {α : Type u} {name : String} {value : α} {e : String × α}
    {l : List (String × α)} (h : e ∈ insertByName name value l) : e = (name, value) ∨ e ∈ l := by
  induction l with
  | nil => simp_all [insertByName]
  | cons a rest ih =>
    rw [insertByName] at h
    split at h
    · exact List.mem_cons.mp h
    · split at h
      · exact (List.mem_cons.mp h).imp_right (List.mem_cons_of_mem _)
      · rcases List.mem_cons.mp h with rfl | h
        · exact .inr List.mem_cons_self
        · exact (ih h).imp_right (List.mem_cons_of_mem _)

theorem sortedByName_insertByName {α : Type u} (name : String) (value : α)
    {l : List (String × α)} (h : SortedByName l) : SortedByName (insertByName name value l) := by
  induction l with
  | nil => exact List.pairwise_singleton ..
  | cons a rest ih =>
    obtain ⟨ha, hrest⟩ := List.pairwise_cons.mp h
    rw [insertByName]
    split
    · next hlt =>
      exact List.pairwise_cons.mpr ⟨fun b hb => (List.mem_cons.mp hb).elim (fun e => e ▸ hlt)
        (fun hb => String.lt_trans hlt (ha b hb)), h⟩
    · next hlt =>
      split
      · next heq => exact List.pairwise_cons.mpr ⟨fun b hb => heq ▸ ha b hb, hrest⟩
      · next hne =>
        refine List.pairwise_cons.mpr ⟨fun b hb => ?_, ih hrest⟩
        rcases mem_of_mem_insertByName hb with rfl | hb
        · exact name_lt_of_not_lt hlt hne
        · exact ha b hb

theorem sortedByName_sortByName {α : Type u} (bindings : List (String × α)) :
    SortedByName (sortByName bindings) := by
  suffices h : ∀ (l acc : List (String × α)), SortedByName acc →
      SortedByName (l.foldl (fun sorted e => insertByName e.1 e.2 sorted) acc) from
    h bindings [] .nil
  intro l
  induction l with
  | nil => exact fun _ h => h
  | cons e rest ih => exact fun acc h => ih _ (sortedByName_insertByName _ _ h)

theorem lookup_cons_eq {α : Type u} (name : String) (e : String × α) (l : List (String × α)) :
    (e :: l).lookup name = if name = e.1 then some e.2 else l.lookup name := by
  obtain ⟨k, v⟩ := e
  rw [List.lookup_cons]
  by_cases h : name = k
  · simp [h]
  · have hne : (name == k) = false := by simpa using h
    simp [hne, h]

theorem lookup_insertByName {α : Type u} (name key : String) (value : α)
    (l : List (String × α)) :
    (insertByName name value l).lookup key
      = if key = name then some value else l.lookup key := by
  induction l with
  | nil => rw [insertByName, lookup_cons_eq]
  | cons a rest ih =>
    rw [insertByName]
    split
    · rw [lookup_cons_eq]
    · split
      · next heq =>
        rw [lookup_cons_eq, lookup_cons_eq]
        by_cases h : key = name
        · simp [h]
        · have hne : key ≠ a.1 := heq ▸ h
          simp [h, hne]
      · next hne =>
        rw [lookup_cons_eq, lookup_cons_eq, ih]
        by_cases h : key = a.1
        · have hk : key ≠ name := fun e => hne (e ▸ h)
          simp [h, h ▸ hk]
        · simp [h]

theorem lookup_eq_none_of_lt {α : Type u} {name : String} {l : List (String × α)}
    (h : ∀ e ∈ l, name < e.1) : l.lookup name = none := by
  induction l with
  | nil => rfl
  | cons a rest ih =>
    have ha := h a List.mem_cons_self
    have hne : name ≠ a.1 := fun e => String.lt_irrefl _ (e ▸ ha)
    rw [lookup_cons_eq, if_neg hne]
    exact ih fun e he => h e (List.mem_cons_of_mem _ he)

/-- A name below the first one of a sorted list is not bound. -/
theorem lookup_eq_none_of_lt_head {α : Type u} {name : String} {a : String × α} {l : List (String × α)}
    (h : SortedByName (a :: l)) (hlt : name < a.1) : (a :: l).lookup name = none :=
  lookup_eq_none_of_lt fun e he => (List.mem_cons.mp he).elim (fun eq => eq ▸ hlt)
    (fun he => String.lt_trans hlt ((List.pairwise_cons.mp h).1 e he))

/-- Sorted lists with equal look-ups are equal. -/
theorem eq_of_lookup_eq {α : Type u} {l₁ l₂ : List (String × α)} (h₁ : SortedByName l₁)
    (h₂ : SortedByName l₂) (h : ∀ name, l₁.lookup name = l₂.lookup name) : l₁ = l₂ := by
  induction l₁ generalizing l₂ with
  | nil =>
    cases l₂ with
    | nil => rfl
    | cons b r₂ =>
      have hb := h b.1
      rw [lookup_cons_eq, if_pos rfl] at hb
      exact absurd hb (by simp)
  | cons a r₁ ih =>
    cases l₂ with
    | nil =>
      have ha := h a.1
      rw [lookup_cons_eq, if_pos rfl] at ha
      exact absurd ha (by simp)
    | cons b r₂ =>
      have key : a.1 = b.1 := by
        apply Classical.byContradiction
        intro hne
        by_cases hlt : a.1 < b.1
        · have ha := h a.1
          rw [lookup_eq_none_of_lt_head h₂ hlt, lookup_cons_eq, if_pos rfl] at ha
          exact absurd ha (by simp)
        · have hb := h b.1
          rw [lookup_eq_none_of_lt_head h₁ (name_lt_of_not_lt hlt hne), lookup_cons_eq, if_pos rfl] at hb
          exact absurd hb (by simp)
      have value : a.2 = b.2 := by
        have ha := h a.1
        rw [lookup_cons_eq, lookup_cons_eq, if_pos rfl, if_pos key] at ha
        exact Option.some.inj ha
      have rest : r₁ = r₂ := by
        refine ih (List.pairwise_cons.mp h₁).2 (List.pairwise_cons.mp h₂).2 fun name => ?_
        by_cases hn : name = a.1
        · subst hn
          rw [lookup_eq_none_of_lt (List.pairwise_cons.mp h₁).1,
            lookup_eq_none_of_lt (key ▸ (List.pairwise_cons.mp h₂).1)]
        · have hname := h name
          rwa [lookup_cons_eq, lookup_cons_eq, if_neg hn, if_neg (key ▸ hn)] at hname
      rw [rest, Prod.ext key value]

/-- Names bound to values, each name once. -/
structure NameMap (α : Type u) where
  entries : List (String × α)
  sorted : SortedByName entries := by exact .nil
deriving DecidableEq

/-- A set of names. -/
abbrev NameSet := NameMap Unit

namespace NameMap

variable {α : Type u} {β : Type v}

/-- The map that binds no name. -/
def empty : NameMap α := ⟨[], .nil⟩

instance : EmptyCollection (NameMap α) := ⟨empty⟩
instance : Inhabited (NameMap α) := ⟨empty⟩

/-- The value that `name` is bound to. -/
def get? (m : NameMap α) (name : String) : Option α := m.entries.lookup name

/-- Some value is bound to `name`. -/
def contains (m : NameMap α) (name : String) : Bool := (m.get? name).isSome

/-- Binds `name` to `value`, in place of its old value if it has one. -/
def insert (m : NameMap α) (name : String) (value : α) : NameMap α :=
  ⟨insertByName name value m.entries, sortedByName_insertByName _ _ m.sorted⟩

/-- Removes the binding of `name`. -/
def erase (m : NameMap α) (name : String) : NameMap α :=
  ⟨m.entries.filter (·.1 ≠ name), m.sorted.filter _⟩

/-- The map of a list of bindings: the last binding of a name holds. -/
def ofList (bindings : List (String × α)) : NameMap α :=
  ⟨sortByName bindings, sortedByName_sortByName bindings⟩

/-- The names bound, in code point order. -/
def names (m : NameMap α) : List String := m.entries.map (·.1)

/-- Applies `f` to each value. -/
def mapValues (f : α → β) (m : NameMap α) : NameMap β :=
  ⟨m.entries.map fun e => (e.1, f e.2), List.pairwise_map.mpr m.sorted⟩

/-- The set of the names bound. -/
def nameSet (m : NameMap α) : NameSet := m.mapValues fun _ => ()

@[simp] theorem get?_empty (name : String) : (empty : NameMap α).get? name = none := rfl

theorem get?_insert (m : NameMap α) (name key : String) (value : α) :
    (m.insert name value).get? key = if key = name then some value else m.get? key :=
  lookup_insertByName name key value m.entries

theorem get?_erase (m : NameMap α) (name key : String) :
    (m.erase name).get? key = if key = name then none else m.get? key := by
  obtain ⟨l, h⟩ := m
  simp only [erase, get?]
  clear h
  induction l with
  | nil => simp
  | cons a rest ih =>
    rw [List.filter_cons]
    by_cases ha : a.1 = name
    · rw [if_neg (by simpa using ha), ih, lookup_cons_eq]
      by_cases hk : key = name
      · simp [hk]
      · rw [if_neg hk, if_neg hk, if_neg (ha ▸ hk)]
    · rw [if_pos (by simpa using ha), lookup_cons_eq, lookup_cons_eq, ih]
      by_cases hk : key = a.1
      · rw [if_pos hk, if_pos hk, if_neg (fun e => ha (hk ▸ e))]
      · rw [if_neg hk, if_neg hk]

theorem get?_mapValues (f : α → β) (m : NameMap α) (key : String) :
    (m.mapValues f).get? key = (m.get? key).map f := by
  obtain ⟨l, h⟩ := m
  simp only [mapValues, get?]
  clear h
  induction l with
  | nil => rfl
  | cons a rest ih =>
    rw [List.map_cons, lookup_cons_eq, lookup_cons_eq, ih]
    by_cases h : key = a.1 <;> simp [h]

/-- Maps with equal look-ups are equal. -/
theorem ext_get? {m₁ m₂ : NameMap α} (h : ∀ name, m₁.get? name = m₂.get? name) : m₁ = m₂ := by
  obtain ⟨l₁, h₁⟩ := m₁
  obtain ⟨l₂, h₂⟩ := m₂
  simp only [mk.injEq]
  exact eq_of_lookup_eq h₁ h₂ h

end NameMap

/-- The set of the names in a list. -/
def NameSet.ofNames (names : List String) : NameSet := NameMap.ofList (names.map (·, ()))

end TablePipeline
