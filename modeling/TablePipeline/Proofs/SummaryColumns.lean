import TablePipeline.Proofs.Columns
import Mathlib.Data.List.Dedup
import Mathlib.Data.List.Induction
/-!
# The columns of a summary

An aggregate is reported in the column that it is made of, or, if that name is taken, in the one
named after the function too (`Aggregate.fallback`). No two aggregates fall back to one name, but the
name may be the column of an aggregate that came before (`Aggregate.Collision`). Then the later one
takes the place of the earlier one. Without such a collision a summary has a column for each
aggregate, with its value (`Table.summarize_columns`).
-/

namespace TablePipeline

/-- A function of a column. -/
structure Aggregate where
  function : AggregateFn
  column : String
deriving DecidableEq

namespace Aggregate

variable {used before after aggregates : List Aggregate} {a b : Aggregate}

def expr (a : Aggregate) : Expr := .aggregate a.function a.column

/-- The name of the aggregate where that of its column is taken. -/
def fallback (a : Aggregate) : String := a.column ++ "_" ++ a.function.code

/-- The name of the aggregate where some names are used already. -/
def name (used : List String) (a : Aggregate) : String :=
  if a.column ∈ used then a.fallback else a.column

/-- The names of aggregates, each of which uses up its own. -/
def names (used : List String) : List Aggregate → List String
  | [] => []
  | a :: rest => a.name used :: names (a.name used :: used) rest

theorem summaryNames_eq (used : List String) (aggregates : List Aggregate) :
    Table.summaryNames used (aggregates.map expr) = .ok (names used aggregates) := by
  induction aggregates generalizing used with
  | nil => rfl
  | cons a rest ih =>
    have hrest := ih (a.name used :: used)
    show (Table.summaryNames (a.name used :: used) (rest.map expr) >>= fun names =>
      .ok (a.name used :: names)) = _
    rw [hrest]
    rfl

theorem length_names (used : List String) (aggregates : List Aggregate) :
    (names used aggregates).length = aggregates.length := by
  induction aggregates generalizing used with
  | nil => rfl
  | cons a rest ih => rw [names, List.length_cons, List.length_cons, ih]

/-! ### Fallback names -/

theorem not_mem_code (f : AggregateFn) : '_' ∉ f.code.toList := by
  cases f <;> decide

theorem toList_fallback (a : Aggregate) :
    a.fallback.toList = a.column.toList ++ '_' :: a.function.code.toList := by
  rw [fallback, String.toList_append, String.toList_append]
  simp

theorem fallback_ne_indexColumn (a : Aggregate) : a.fallback ≠ indexColumn := by
  intro h
  have hmem : '_' ∈ a.fallback.toList := by
    rw [toList_fallback]
    exact List.mem_append_right _ List.mem_cons_self
  rw [h] at hmem
  exact absurd hmem (by decide)

/-- The text after a separator that is not in it is determined, and so is the text before. -/
theorem eq_of_append_separator {l₁ l₂ r₁ r₂ : List Char} {c : Char} (hr₁ : c ∉ r₁) (hr₂ : c ∉ r₂)
    (h : l₁ ++ c :: r₁ = l₂ ++ c :: r₂) : l₁ = l₂ ∧ r₁ = r₂ := by
  have hcut {l r r' : List Char} (hr : c ∉ r) (h : c :: r = l ++ c :: r') : l = [] ∧ r = r' := by
    cases l with
    | nil => exact ⟨rfl, List.tail_eq_of_cons_eq h⟩
    | cons d l =>
      have htail : r = l ++ c :: r' := List.tail_eq_of_cons_eq h
      apply absurd _ hr
      rw [htail]
      exact List.mem_append_right _ List.mem_cons_self
  rcases List.append_eq_append_iff.mp h with ⟨l, hl, hr⟩ | ⟨l, hl, hr⟩
  · obtain ⟨rfl, heq⟩ := hcut hr₁ hr
    exact ⟨by rw [hl, List.append_nil], heq⟩
  · obtain ⟨rfl, heq⟩ := hcut hr₂ hr
    exact ⟨by rw [hl, List.append_nil], heq.symm⟩

theorem code_injective : Function.Injective AggregateFn.code := by
  intro f g h
  have hcode := congrArg AggregateFn.ofCode? h
  rw [AggregateFn.ofCode?_code, AggregateFn.ofCode?_code] at hcode
  exact Option.some.inj hcode

theorem fallback_injective : Function.Injective fallback := by
  intro a b h
  have hchars := congrArg String.toList h
  rw [toList_fallback, toList_fallback] at hchars
  obtain ⟨hcolumn, hcode⟩ := eq_of_append_separator (not_mem_code _) (not_mem_code _) hchars
  obtain ⟨f, column⟩ := a
  obtain ⟨g, column'⟩ := b
  obtain rfl : column = column' := String.toList_injective hcolumn
  obtain rfl : f = g := code_injective (String.toList_injective hcode)
  rfl

/-! ### Names that are taken -/

theorem name_eq (used : List String) (a : Aggregate) :
    a.name used = a.column ∧ a.column ∉ used ∨ a.name used = a.fallback ∧ a.column ∈ used := by
  by_cases h : a.column ∈ used
  · exact .inr ⟨if_pos h, h⟩
  · exact .inl ⟨if_neg h, h⟩

theorem names_append (used : List String) (before after : List Aggregate) :
    names used (before ++ after)
      = names used before ++ names ((names used before).reverse ++ used) after := by
  induction before generalizing used with
  | nil => rfl
  | cons a rest ih => simp [names, ih]

/-- A name is the column of an aggregate or the name that one falls back to. -/
theorem exists_of_mem_names {used : List String} {n : String} (h : n ∈ names used aggregates) :
    ∃ a ∈ aggregates, n = a.column ∨ n = a.fallback := by
  induction aggregates generalizing used with
  | nil => cases h
  | cons a rest ih =>
    rcases List.mem_cons.mp h with rfl | h
    · refine ⟨a, List.mem_cons_self, ?_⟩
      exact (name_eq used a).imp And.left And.left
    · obtain ⟨b, hb, hn⟩ := ih h
      exact ⟨b, List.mem_cons_of_mem _ hb, hn⟩

theorem indexColumn_not_mem_names {used : List String} (h : indexColumn ∈ used) :
    indexColumn ∉ names used aggregates := by
  induction aggregates generalizing used with
  | nil => exact List.not_mem_nil
  | cons a rest ih =>
    apply List.not_mem_cons_of_ne_of_not_mem
    · rcases name_eq used a with ⟨hname, hfree⟩ | ⟨hname, -⟩
      · intro heq
        rw [← hname, ← heq] at hfree
        exact hfree h
      · rw [hname]
        exact (fallback_ne_indexColumn a).symm
    · exact ih (List.mem_cons_of_mem _ h)

/-- The column of an aggregate is used by it, or was used before. -/
theorem column_mem_names (used : List String) (h : a ∈ aggregates) :
    a.column ∈ used ∨ a.column ∈ names used aggregates := by
  induction aggregates generalizing used with
  | nil => cases h
  | cons b rest ih =>
    rcases List.mem_cons.mp h with rfl | h
    · rcases name_eq used a with ⟨hname, -⟩ | ⟨-, hused⟩
      · exact .inr (by rw [names, hname]; exact List.mem_cons_self)
      · exact .inl hused
    · rcases ih (b.name used :: used) h with hused | hnames
      · rcases List.mem_cons.mp hused with heq | hused
        · exact .inr (by rw [names, heq]; exact List.mem_cons_self)
        · exact .inl hused
      · exact .inr (List.mem_cons_of_mem _ hnames)

/-- After some others, an aggregate finds its column taken, and the name that it falls back to is the
column of one of them. -/
def Collides (before : List Aggregate) (a : Aggregate) : Prop :=
  a.column ∈ indexColumn :: names [indexColumn] before ∧ ∃ b ∈ before, b.column = a.fallback

/-- Some aggregate collides with those before it. -/
def Collision (aggregates : List Aggregate) : Prop :=
  ∃ before a after, aggregates = before ++ a :: after ∧ Collides before a

/-- An aggregate that is not there yet gets a name that is there if and only if it collides. -/
theorem name_mem_names_iff (h : a ∉ before) :
    a.name ((names [indexColumn] before).reverse ++ [indexColumn]) ∈ names [indexColumn] before ↔
      Collides before a := by
  have hused : a.column ∈ (names [indexColumn] before).reverse ++ [indexColumn] ↔
      a.column ∈ indexColumn :: names [indexColumn] before := by
    simp [or_comm]
  rcases name_eq ((names [indexColumn] before).reverse ++ [indexColumn]) a with
    ⟨hname, hfree⟩ | ⟨hname, htaken⟩
  · rw [hname]
    rw [hused] at hfree
    constructor
    · intro hmem
      exact absurd (List.mem_cons_of_mem _ hmem) hfree
    · intro hcollides
      exact absurd hcollides.1 hfree
  · rw [hname]
    constructor
    · intro hmem
      refine ⟨hused.mp htaken, ?_⟩
      obtain ⟨b, hb, hcolumn | hfallback⟩ := exists_of_mem_names hmem
      · exact ⟨b, hb, hcolumn.symm⟩
      · exact absurd (fallback_injective hfallback ▸ hb) h
    · intro hcollides
      obtain ⟨-, b, hb, hcolumn⟩ := hcollides
      rcases column_mem_names [indexColumn] hb with hindex | hmem
      · rw [hcolumn, List.mem_singleton] at hindex
        exact absurd hindex (fallback_ne_indexColumn a)
      · exact hcolumn ▸ hmem

theorem collision_append_singleton :
    Collision (before ++ [a]) ↔ Collision before ∨ Collides before a := by
  constructor
  · intro h
    obtain ⟨first, b, rest, heq, hcollides⟩ := h
    rcases List.eq_nil_or_concat rest with rfl | ⟨rest, c, rfl⟩
    · obtain ⟨rfl, hab⟩ := List.append_inj' heq rfl
      cases hab
      exact .inr hcollides
    · rw [List.concat_eq_append, ← List.cons_append, ← List.append_assoc] at heq
      obtain ⟨rfl, -⟩ := List.append_inj' heq rfl
      exact .inl ⟨first, b, rest, rfl, hcollides⟩
  · intro h
    rcases h with ⟨first, b, rest, rfl, hcollides⟩ | hcollides
    · exact ⟨first, b, rest ++ [a], by simp, hcollides⟩
    · exact ⟨before, a, [], rfl, hcollides⟩

/-- Aggregates that differ have names that differ, unless one collides with those before it. -/
theorem nodup_names_iff (h : aggregates.Nodup) :
    (names [indexColumn] aggregates).Nodup ↔ ¬ Collision aggregates := by
  induction aggregates using List.reverseRecOn with
  | nil => exact iff_of_true .nil fun ⟨before, a, after, heq, _⟩ => by simp at heq
  | append_singleton before a ih =>
    obtain ⟨hbefore, -, hdisjoint⟩ := List.nodup_append.mp h
    have hnew : a ∉ before := fun ha => hdisjoint a ha a List.mem_cons_self rfl
    rw [collision_append_singleton, not_or, ← ih hbefore, ← name_mem_names_iff hnew, names_append]
    show (names [indexColumn] before ++ [_]).Nodup ↔ _
    rw [← List.concat_eq_append, List.nodup_concat, and_comm]

end Aggregate

/-! ### Rows of a summary -/

open Outcome

/-- The row holds aggregates of some rows under some names, and the index if there is one. Of the
aggregates that have one name it holds the last. -/
structure Row.Reports (aggregates : List Aggregate) (names : List String) (index : Option Value)
    (rows : List Row) (row : Row) : Prop where
  columns : row.nameSet = Table.summaryColumns index.isSome names
  index : ∀ key, index = some key → row.get? indexColumn = some key
  last : ∀ before name a after, names.zip aggregates = before ++ (name, a) :: after →
    name ∉ after.map (·.1) → ∃ v, a.expr.onRows rows = .ok v ∧ row.get? name = some v

namespace Row.Reports

variable {aggregates : List Aggregate} {names : List String} {index : Option Value}
  {rows : List Row} {row : Row}

/-- Names that differ are the columns of the row, one for each aggregate. -/
theorem names_perm (h : Reports aggregates names index rows row) (hindex : indexColumn ∉ names) :
    row.names.Perm (if index.isSome then indexColumn :: names.dedup else names.dedup) := by
  have hmem (name : String) :
      name ∈ row.names ↔ name ∈ names ∨ index.isSome = true ∧ name = indexColumn := by
    rw [NameMap.mem_names, ← NameMap.contains_nameSet, h.columns, Table.summaryColumns]
    cases index with
    | none => simp [NameSet.contains_ofNames]
    | some key => simp [NameMap.contains_insert, NameSet.contains_ofNames, or_comm]
  refine (List.perm_ext_iff_of_nodup row.nodup_names ?_).mpr fun name => ?_
  · split
    · exact List.nodup_cons.mpr ⟨fun hmem => hindex (List.mem_dedup.mp hmem), names.nodup_dedup⟩
    · exact names.nodup_dedup
  · rw [hmem]
    cases index with
    | none => simp
    | some key => simp [or_comm]

theorem length_names_iff (h : Reports aggregates names index rows row)
    (hindex : indexColumn ∉ names) :
    row.names.length = names.length + (if index.isSome then 1 else 0) ↔ names.Nodup := by
  have hlength : row.names.length = names.dedup.length + (if index.isSome then 1 else 0) := by
    rw [(h.names_perm hindex).length_eq]
    split <;> rfl
  rw [hlength, Nat.add_right_cancel_iff]
  constructor
  · intro hsame
    exact List.dedup_eq_self.mp ((List.dedup_sublist names).eq_of_length hsame)
  · intro hnodup
    rw [List.dedup_eq_self.mpr hnodup]

/-- Where the names differ, every aggregate has its own value in the column of its name. -/
theorem own (h : Reports aggregates names index rows row)
    (hlength : names.length = aggregates.length) (hnodup : names.Nodup) :
    ∀ p ∈ names.zip aggregates, ∃ v, p.2.expr.onRows rows = .ok v ∧ row.get? p.1 = some v := by
  intro p hp
  obtain ⟨before, after, hsplit⟩ := List.append_of_mem hp
  apply h.last before p.1 p.2 after hsplit
  have hnames : names = before.map (·.1) ++ p.1 :: after.map (·.1) := by
    rw [← List.map_fst_zip (Nat.le_of_eq hlength), hsplit, List.map_append, List.map_cons]
  rw [hnames] at hnodup
  exact (List.nodup_cons.mp (List.nodup_append.mp hnodup).2.1).1

end Row.Reports

namespace Table

variable {t u : Table} {aggregates : List Aggregate} {names : List String} {rows : List Row}
  {row : Row}

/-- The parts of a table that are summarized: its groups with their keys, or all rows. -/
def slices (t : Table) : List (Option Value × List Row) :=
  match t.groups with
  | some groups => groups.map fun g => (some g.key, t.groupRows g)
  | none => [(none, t.rows)]

theorem get?_summaryRow (h : summaryRow (aggregates.map Aggregate.expr) names rows = .ok row)
    {before after : List (String × Aggregate)} {name : String} {a : Aggregate}
    (hsplit : names.zip aggregates = before ++ (name, a) :: after)
    (hlast : name ∉ after.map (·.1)) :
    ∃ v, a.expr.onRows rows = .ok v ∧ row.get? name = some v := by
  obtain ⟨cells, hcells, h⟩ := bind_eq_ok.mp h
  obtain rfl := pure_eq_ok.mp h
  rw [List.zip_map_right, hsplit, List.map_append, List.map_cons, List.mapM_append] at hcells
  obtain ⟨first, -, hcells⟩ := bind_eq_ok.mp hcells
  obtain ⟨later, hlater, hcells⟩ := bind_eq_ok.mp hcells
  obtain rfl := pure_eq_ok.mp hcells
  rw [List.mapM_cons] at hlater
  obtain ⟨cell, hcell, hlater⟩ := bind_eq_ok.mp hlater
  obtain ⟨rest, hrest, hlater⟩ := bind_eq_ok.mp hlater
  obtain rfl := pure_eq_ok.mp hlater
  obtain ⟨v, hv, hcell⟩ := bind_eq_ok.mp hcell
  obtain rfl := pure_eq_ok.mp hcell
  have hnames : rest.map (·.1) = (after.map (Prod.map id Aggregate.expr)).map (·.1) := by
    refine map_eq_of_mapM_ok (fun entry cell hcell => ?_) hrest
    obtain ⟨w, -, hw⟩ := bind_eq_ok.mp hcell
    obtain rfl := pure_eq_ok.mp hw
    rfl
  rw [List.map_map] at hnames
  refine ⟨v, hv, NameMap.get?_ofList_of_last ?_⟩
  rw [hnames]
  exact hlast

theorem reports_of_summaryRow (hlength : names.length = aggregates.length)
    (h : summaryRow (aggregates.map Aggregate.expr) names rows = .ok row) :
    Row.Reports aggregates names none rows row where
  columns := nameSet_of_summaryRow (by rw [hlength, List.length_map]) h
  index := nofun
  last _ _ _ _ hsplit hlast := get?_summaryRow h hsplit hlast

/-- The index that a group adds is not the column of an aggregate. -/
theorem reports_insert_index (h : Row.Reports aggregates names none rows row)
    (hindex : indexColumn ∉ names) (key : Value) :
    Row.Reports aggregates names (some key) rows (row.insert indexColumn key) where
  columns := by
    rw [NameMap.nameSet_insert, h.columns]
    rfl
  index k hk := by
    rw [NameMap.get?_insert, if_pos rfl, hk]
  last before name a after hsplit hlast := by
    obtain ⟨v, hv, hcell⟩ := h.last before name a after hsplit hlast
    have hname : name ∈ names := by
      have hmem : (name, a) ∈ names.zip aggregates := hsplit ▸ List.mem_append_cons_self
      exact (List.of_mem_zip hmem).1
    have hne : name ≠ indexColumn := fun heq => hindex (heq ▸ hname)
    exact ⟨v, hv, by rw [NameMap.get?_insert, if_neg hne, hcell]⟩

theorem summarize_reports (h : t.summarize (aggregates.map Aggregate.expr) = .ok u) :
    List.Forall₂ (fun slice row =>
      Row.Reports aggregates (Aggregate.names [indexColumn] aggregates) slice.1 slice.2 row)
      t.slices u.rows := by
  rw [summarize_eq, Aggregate.summaryNames_eq, ok_bind] at h
  obtain ⟨rows, hrows, h⟩ := bind_eq_ok.mp h
  obtain rfl := ofRows_eq h
  have hlength := Aggregate.length_names [indexColumn] aggregates
  have hindex : indexColumn ∉ Aggregate.names [indexColumn] aggregates :=
    Aggregate.indexColumn_not_mem_names List.mem_cons_self
  unfold summaryRows at hrows
  unfold slices
  cases hgroups : t.groups with
  | none =>
    rw [hgroups] at hrows
    obtain ⟨row, hrow, hsingle⟩ := bind_eq_ok.mp hrows
    obtain rfl := pure_eq_ok.mp hsingle
    exact .cons (reports_of_summaryRow hlength hrow) .nil
  | some groups =>
    rw [hgroups] at hrows
    refine List.forall₂_map_left_iff.mpr ((mapM_eq_ok_iff.mp hrows).imp fun g row hrow => ?_)
    obtain ⟨r, hr, hinsert⟩ := bind_eq_ok.mp hrow
    obtain rfl := pure_eq_ok.mp hinsert
    exact reports_insert_index (reports_of_summaryRow hlength hr) hindex g.key

/-- The names of aggregates that differ are never the index, and they differ unless there is a
collision. Without one, every row of a summary has exactly one column for each aggregate, besides
the index if the table is grouped, with the value of that aggregate. With one, a column is missing:
it holds the value of the last aggregate of its name. -/
theorem summarize_columns (h : aggregates.Nodup) :
    ∃ names, summaryNames [indexColumn] (aggregates.map Aggregate.expr) = .ok names ∧
      names.length = aggregates.length ∧ indexColumn ∉ names ∧
      (names.Nodup ↔ ¬ Aggregate.Collision aggregates) ∧
      ∀ t u : Table, t.summarize (aggregates.map Aggregate.expr) = .ok u →
        List.Forall₂ (fun slice row => Row.Reports aggregates names slice.1 slice.2 row ∧
          (row.names.length = aggregates.length + (if slice.1.isSome then 1 else 0) ↔
            ¬ Aggregate.Collision aggregates) ∧
          (¬ Aggregate.Collision aggregates → ∀ p ∈ names.zip aggregates,
            ∃ v, p.2.expr.onRows slice.2 = .ok v ∧ row.get? p.1 = some v)) t.slices u.rows := by
  have hlength := Aggregate.length_names [indexColumn] aggregates
  have hindex : indexColumn ∉ Aggregate.names [indexColumn] aggregates :=
    Aggregate.indexColumn_not_mem_names List.mem_cons_self
  have hnodup := Aggregate.nodup_names_iff h
  refine ⟨_, Aggregate.summaryNames_eq [indexColumn] aggregates, hlength, hindex, hnodup,
    fun t u hsummarize => ?_⟩
  refine (summarize_reports hsummarize).imp fun slice row hreports => ?_
  refine ⟨hreports, ?_, fun hcollision => hreports.own hlength (hnodup.mpr hcollision)⟩
  rw [← hnodup, ← hlength]
  exact hreports.length_names_iff hindex

/-- The least, the greatest and a sum. The greatest takes the name of the column that is summed. -/
def withoutCollision : List Aggregate := [⟨.min, "a"⟩, ⟨.max, "a"⟩, ⟨.sum, "a_max"⟩]

def scores : Table where
  rows := [.ofList [("a", .int 1), ("a_max", .int 10)], .ofList [("a", .int 2), ("a_max", .int 20)]]

theorem withoutCollision_columns :
    withoutCollision.Nodup ∧
    ∃ names, summaryNames [indexColumn] (withoutCollision.map Aggregate.expr) = .ok names ∧
      names.Nodup ∧
      ∃ row, scores.summarize (withoutCollision.map Aggregate.expr) = .ok { rows := [row] } ∧
        row.entries = [("a", .int 1), ("a_max", .int 2), ("a_max_sum", .int 30)] ∧
        ∀ p ∈ names.zip withoutCollision,
          ∃ v, p.2.expr.onRows scores.rows = .ok v ∧ row.get? p.1 = some v := by
  have hdistinct : withoutCollision.Nodup := by decide
  obtain ⟨names, hnames, -, -, hnodup, hrows⟩ := summarize_columns hdistinct
  have hclear : names.Nodup := by
    cases hnames.symm.trans (show summaryNames [indexColumn]
      (withoutCollision.map Aggregate.expr) = .ok ["a", "a_max", "a_max_sum"] from rfl)
    decide
  have hsummary : scores.summarize (withoutCollision.map Aggregate.expr)
      = .ok { rows := [.ofList [("a", .int 1), ("a_max", .int 2), ("a_max_sum", .int 30)]] } := rfl
  obtain ⟨-, -, hown⟩ := (List.forall₂_cons.mp (hrows scores _ hsummary)).1
  exact ⟨hdistinct, names, hnames, hclear, _, hsummary, rfl, hown (hnodup.mp hclear)⟩

/-- The same aggregates in another order. Now the name that the greatest falls back to is taken. -/
def withCollision : List Aggregate := [⟨.sum, "a_max"⟩, ⟨.min, "a"⟩, ⟨.max, "a"⟩]

/-- The summary has two columns for three aggregates, and the sum is lost. -/
theorem withCollision_loses_sum :
    withCollision.Nodup ∧
    (∃ names, summaryNames [indexColumn] (withCollision.map Aggregate.expr) = .ok names ∧
      ¬ names.Nodup) ∧
    Expr.onRows scores.rows (.aggregate .sum "a_max") = .ok (.int 30) ∧
    ∃ row, scores.summarize (withCollision.map Aggregate.expr) = .ok { rows := [row] } ∧
      row.entries = [("a", .int 1), ("a_max", .int 2)] :=
  ⟨by decide, ⟨["a_max", "a", "a_max"], rfl, by decide⟩, rfl,
    .ofList [("a", .int 1), ("a_max", .int 2)], rfl, rfl⟩

end Table

end TablePipeline
