import TablePipeline.Proofs.Grouping
/-!
# Groups of tables that have an index already

The index is the one column that a group sets. `Row.RekeyedFrom` says what a group makes of a row:
its key moves from the column to the index, and all other cells stay. A table that has an index from
an earlier group loses it (`Table.group_rekeys`).
-/

namespace TablePipeline

namespace Row

variable {column : String} {source row : Row}

/-- The row has the cells of its source, with the key moved from the column into the index. -/
structure RekeyedFrom (column : String) (source row : Row) : Prop where
  others : ∀ name, name ≠ column → name ≠ indexColumn → row.get? name = source.get? name
  key : row.get? indexColumn = source.get? column
  moved : column ≠ indexColumn → row.get? column = none

/-- The row has all cells of its source outside the column. -/
def KeepsAllBut (column : String) (source row : Row) : Prop :=
  ∀ name, name ≠ column → ∀ v, source.get? name = some v → row.get? name = some v

theorem rekeyedFrom_indexedBy (h : source.contains column = true) :
    RekeyedFrom column source (source.indexedBy column) := by
  constructor
  case others => exact fun _ hcolumn hindex => get?_indexedBy_of_ne hcolumn hindex
  case key => rw [get?_indexedBy, get?_of_contains h]
  case moved =>
    intro hne
    rw [indexedBy, NameMap.get?_insert, if_neg hne, NameMap.get?_erase, if_pos rfl]

/-- Only the index can be lost. -/
theorem RekeyedFrom.keepsAllBut_iff (h : RekeyedFrom column source row) :
    KeepsAllBut column source row ↔ column = indexColumn ∨ source.get? indexColumn = none ∨
      source.get? indexColumn = source.get? column := by
  constructor
  · intro hkeeps
    by_cases hcolumn : column = indexColumn
    · exact .inl hcolumn
    cases hindex : source.get? indexColumn with
    | none => exact .inr (.inl rfl)
    | some v =>
      have hkept := hkeeps indexColumn (Ne.symm hcolumn) v hindex
      exact .inr (.inr (hkept.symm.trans h.key))
  · intro hcases name hname v hv
    by_cases hindex : name = indexColumn
    · subst hindex
      rcases hcases with hcolumn | hnone | hsame
      · exact absurd hcolumn.symm hname
      · rw [hnone] at hv
        cases hv
      · rw [h.key, ← hsame, hv]
    · rw [h.others name hname hindex, hv]

end Row

namespace Table

variable {t : Table} {column : String}

/-- Every row of the groups comes from one row of the table, with its key in the index and all other
cells as they were. Nothing but the column changes if and only if the table had no other index. -/
theorem group_rekeys (h : ∀ row ∈ t.rows, row.contains column = true) :
    ∃ u sources, t.group column = .ok u ∧ sources.Perm t.rows ∧
      List.Forall₂ (fun source row => Row.RekeyedFrom column source row ∧
        (Row.KeepsAllBut column source row ↔ column = indexColumn ∨
          source.get? indexColumn = none ∨
          source.get? indexColumn = source.get? column)) sources u.rows := by
  have hcovers := (t.partition_classes column).covers
  refine ⟨_, (t.classes column).flatMap Class.members, group_eq_classes h, hcovers, ?_⟩
  rw [rows_ofBuckets, List.forall₂_map_right_iff, List.forall₂_same]
  intro source hsource
  have hrekeyed := Row.rekeyedFrom_indexedBy (h source (hcovers.mem_iff.mp hsource))
  exact ⟨hrekeyed, hrekeyed.keepsAllBut_iff⟩

/-- The mean ages of two teams, as a summary of groups leaves them. -/
def meanAges : Table where
  rows := [.ofList [(indexColumn, .text "x"), ("age", .float 30)],
    .ofList [(indexColumn, .text "y"), ("age", .float 40)]]

theorem meanAges_rekeys :
    (∀ row ∈ meanAges.rows, row.contains "age" = true) ∧
    ∃ u sources, meanAges.group "age" = .ok u ∧ sources.Perm meanAges.rows ∧
      List.Forall₂ (fun source row => Row.RekeyedFrom "age" source row ∧
        (Row.KeepsAllBut "age" source row ↔ "age" = indexColumn ∨
          source.get? indexColumn = none ∨
          source.get? indexColumn = source.get? "age")) sources u.rows := by
  have hcolumn : ∀ row ∈ meanAges.rows, row.contains "age" = true := by decide
  exact ⟨hcolumn, group_rekeys hcolumn⟩

/-- The names of the teams are lost when the summary is grouped again. -/
theorem meanAges_lose_teams :
    ∃ u, meanAges.group "age" = .ok u ∧
      ∀ source ∈ meanAges.rows, ∀ row ∈ u.rows, ¬ Row.KeepsAllBut "age" source row := by
  let means : Table :=
    { rows := [.ofList [(indexColumn, .float 30)], .ofList [(indexColumn, .float 40)]]
      groups := some [⟨.float 30, 0, 1⟩, ⟨.float 40, 1, 2⟩] }
  have hindex : ∀ source ∈ meanAges.rows, ∀ row ∈ means.rows,
      (source.get? indexColumn).isSome = true ∧
        row.get? indexColumn ≠ source.get? indexColumn := by decide
  refine ⟨means, rfl, fun source hsource row hrow hkeeps => ?_⟩
  obtain ⟨hsome, hne⟩ := hindex source hsource row hrow
  obtain ⟨team, hteam⟩ := Option.isSome_iff_exists.mp hsome
  exact hne ((hkeeps indexColumn (by decide) team hteam).trans hteam.symm)

end Table

end TablePipeline
