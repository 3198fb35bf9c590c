import TablePipeline.Proofs.Join
import TablePipeline.Proofs.Rewriting
import TablePipeline.Proofs.Rounding
import TablePipeline.Proofs.RowOrder
import TablePipeline.Proofs.Typing
/-!
# Comparisons

Two values can be compared unless their types clash, and then by all six comparisons. What the
comparisons say of two values fits together, and fits what they say of the same values the other way
round (`Value.ComparedAs`). A missing value and NaN take no part in any order, so that the filters by
two opposite comparisons of an order may both drop a row; those by `=` and `≠` never do
(`Table.comparisons_coherent`).
-/

namespace TablePipeline

open Outcome

/-! ### Two values -/

namespace Value

variable {a b : Value} {context : String}

/-- Neither value is missing, and they have different types. -/
def Clash (a b : Value) : Prop := a ≠ .missing ∧ b ≠ .missing ∧ a.typeName ≠ b.typeName

/-- The value is neither missing nor NaN. -/
def IsOrdered (v : Value) : Prop := v ≠ .missing ∧ v.isNaN = false

instance (a b : Value) : Decidable (a.Clash b) := inferInstanceAs (Decidable (_ ∧ _ ∧ _))

instance (v : Value) : Decidable v.IsOrdered := inferInstanceAs (Decidable (_ ∧ _))

theorem order?_of_clash (context : String) (h : a.Clash b) :
    a.order? context b = .error (.typeMismatch context a.typeName b.typeName) := by
  cases a <;> cases b <;> simp_all [Clash, typeName, order?, toFloat?]

theorem not_clash_of_order? {ord : Option Ordering} (h : a.order? context b = .ok ord) :
    ¬ a.Clash b := by
  intro hclash
  cases h.symm.trans (order?_of_clash context hclash)

theorem typeName_eq_of_not_clash (h : ¬ a.Clash b) (ha : a ≠ .missing) (hb : b ≠ .missing) :
    a.typeName = b.typeName := by
  by_contra htype
  exact h ⟨ha, hb, htype⟩

theorem type?_eq (h : a.typeName = b.typeName) : a.type? = b.type? := by
  cases a <;> cases b <;> simp_all [typeName, type?]

theorem exists_rank? (htype : a.typeName = "number") (hnan : a.isNaN = false) :
    ∃ r, a.rank? = some r := by
  cases a with
  | int n => exact ⟨_, Binary64.rank?_ofInt n⟩
  | float x => exact Binary64.exists_rank? hnan
  | missing | bool _ | text _ => simp [typeName] at htype

/-- Unless both are integers, numbers are in the order of their places. -/
theorem order?_eq_rank {r s : Int} (context : String) (hfloat : a.isFloat = true ∨ b.isFloat = true)
    (ha : a.rank? = some r) (hb : b.rank? = some s) :
    a.order? context b = .ok (some (compare r s)) := by
  cases a <;> cases b <;> simp_all [rank?, isFloat, order?, toFloat?, Binary64.compare?]

theorem exists_order?_of_isOrdered (context : String) (ha : a.IsOrdered) (hb : b.IsOrdered)
    (h : a.typeName = b.typeName) : ∃ ord, a.order? context b = .ok (some ord) := by
  by_cases hfloat : a.isFloat = true ∨ b.isFloat = true
  · have hnumber : a.typeName = "number" ∧ b.typeName = "number" := by
      cases a <;> cases b <;> simp_all [isFloat, typeName]
    obtain ⟨r, hr⟩ := exists_rank? hnumber.1 ha.2
    obtain ⟨s, hs⟩ := exists_rank? hnumber.2 hb.2
    exact ⟨_, order?_eq_rank context hfloat hr hs⟩
  · cases a <;> cases b <;> simp_all [isFloat, typeName, order?, IsOrdered]

/-- Values that do not clash can be compared. -/
theorem exists_order?_of_not_clash (context : String) (h : ¬ a.Clash b) :
    ∃ ord, a.order? context b = .ok ord := by
  by_cases hmissing : a = .missing ∨ b = .missing
  · rcases hmissing with rfl | rfl
    · exact ⟨none, rfl⟩
    · cases a <;> exact ⟨none, rfl⟩
  · rw [not_or] at hmissing
    exact order?_isOk context (type?_eq (typeName_eq_of_not_clash h hmissing.1 hmissing.2))

end Value

namespace CompareOp

variable {a b : Value}

/-- What a comparison says of values with an order, or with none. -/
def verdict (op : CompareOp) : Option Ordering → Bool
  | none => op = .neq
  | some ord => op.holds ord

theorem apply_eq (ha : a ≠ .missing) (hb : b ≠ .missing) (op : CompareOp) :
    op.apply a b = (do return op.verdict (← a.order? "comparison" b)) := by
  have hpresent : ¬ (a.isMissing || b.isMissing) = true := by
    rw [Bool.or_eq_true, Value.isMissing_iff, Value.isMissing_iff, not_or]
    exact ⟨ha, hb⟩
  rw [apply, if_neg hpresent]
  rcases a.order? "comparison" b with e | _ | ord <;> rfl

theorem apply_of_order? {ord : Option Ordering} (ha : a ≠ .missing) (hb : b ≠ .missing)
    (h : a.order? "comparison" b = .ok ord) (op : CompareOp) :
    op.apply a b = .ok (op.verdict ord) := by
  rw [apply_eq ha hb, h]
  rfl

theorem apply_of_clash (h : a.Clash b) (op : CompareOp) :
    op.apply a b = .error (.typeMismatch "comparison" a.typeName b.typeName) := by
  rw [apply_eq h.1 h.2.1, Value.order?_of_clash "comparison" h]
  rfl

/-- What a comparison says of two values of which one at least is missing. -/
def verdictOnMissing (op : CompareOp) (both : Bool) : Bool :=
  match op with
  | .eq => both
  | .neq => !both
  | _ => false

theorem apply_of_missing (h : a = .missing ∨ b = .missing) (op : CompareOp) :
    op.apply a b = .ok (op.verdictOnMissing (a.isMissing && b.isMissing)) := by
  rcases h with rfl | rfl
  · cases op <;> rfl
  · cases a <;> cases op <;> rfl

end CompareOp

/-- The comparisons of `a` with `b` are `forth`, those of `b` with `a` are `back`, and they fit
together. -/
structure Value.ComparedAs (a b : Value) (forth back : CompareOp → Bool) : Prop where
  apply_forth : ∀ op : CompareOp, op.apply a b = .ok (forth op)
  apply_back : ∀ op : CompareOp, op.apply b a = .ok (back op)
  neq : forth .neq = !forth .eq
  lt_swap : forth .lt = back .gt
  lte_swap : forth .lte = back .gte
  eq_swap : forth .eq = back .eq
  lte_iff : forth .lte = true ↔
    (a ≠ .missing ∧ b ≠ .missing) ∧ (forth .lt = true ∨ forth .eq = true)
  ordered : a.IsOrdered → b.IsOrdered → ∃! op, op ∈ [.lt, .eq, .gt] ∧ forth op = true
  unordered : ¬ (a.IsOrdered ∧ b.IsOrdered) → ∀ op ∈ [.lt, .gt, .lte, .gte], forth op = false

namespace Value

variable {a b : Value}

/-- There is exactly one of the three ways in which values can be in order. -/
theorem existsUnique_holds (ord : Ordering) :
    ∃! op, op ∈ [CompareOp.lt, .eq, .gt] ∧ op.holds ord = true := by
  cases ord
  · exact ⟨.lt, by decide, by rintro ⟨⟩ <;> decide⟩
  · exact ⟨.eq, by decide, by rintro ⟨⟩ <;> decide⟩
  · exact ⟨.gt, by decide, by rintro ⟨⟩ <;> decide⟩

theorem comparedAs_of_missing (h : a = .missing ∨ b = .missing) :
    ∃ forth back, a.ComparedAs b forth back := by
  have hunordered : ¬ (a.IsOrdered ∧ b.IsOrdered) := by
    rintro ⟨ha, hb⟩
    exact h.elim ha.1 hb.1
  refine ⟨_, _, CompareOp.apply_of_missing h, CompareOp.apply_of_missing h.symm, rfl, rfl, rfl,
    Bool.and_comm .., ?_, ?_, ?_⟩
  · simp only [CompareOp.verdictOnMissing, Bool.false_eq_true, false_iff]
    rintro ⟨⟨ha, hb⟩, -⟩
    exact h.elim ha hb
  · exact fun ha hb => absurd ⟨ha, hb⟩ hunordered
  · intro _ op hop
    simp only [List.mem_cons, List.not_mem_nil, or_false] at hop
    rcases hop with rfl | rfl | rfl | rfl <;> rfl

theorem comparedAs_of_order? {ord : Option Ordering} (ha : a ≠ .missing) (hb : b ≠ .missing)
    (htype : a.typeName = b.typeName) (h : a.order? "comparison" b = .ok ord) :
    a.ComparedAs b (·.verdict ord) (·.verdict (ord.map Ordering.swap)) where
  apply_forth := CompareOp.apply_of_order? ha hb h
  apply_back := CompareOp.apply_of_order? hb ha (order?_swap h)
  neq := by rcases ord with _ | _ | _ | _ <;> rfl
  lt_swap := by rcases ord with _ | _ | _ | _ <;> rfl
  lte_swap := by rcases ord with _ | _ | _ | _ <;> rfl
  eq_swap := by rcases ord with _ | _ | _ | _ <;> rfl
  lte_iff := by
    rw [and_iff_right ⟨ha, hb⟩]
    rcases ord with _ | _ | _ | _ <;> decide
  ordered := by
    intro hao hbo
    obtain ⟨o, ho⟩ := exists_order?_of_isOrdered "comparison" hao hbo htype
    cases h.symm.trans ho
    exact existsUnique_holds o
  unordered := by
    intro hunordered op hop
    have hnone : ord = none := by
      by_contra hsome
      obtain ⟨o, rfl⟩ := Option.ne_none_iff_exists'.mp hsome
      have hnan : a.isNaN = true ∨ b.isNaN = true := by
        by_contra hnone
        simp only [not_or, Bool.not_eq_true] at hnone
        exact hunordered ⟨⟨ha, hnone.1⟩, hb, hnone.2⟩
      exact order?_of_isNaN "comparison" hnan o h
    subst hnone
    simp only [List.mem_cons, List.not_mem_nil, or_false] at hop
    rcases hop with rfl | rfl | rfl | rfl <;> rfl

theorem comparedAs_of_not_clash (h : ¬ a.Clash b) : ∃ forth back, a.ComparedAs b forth back := by
  by_cases hmissing : a = .missing ∨ b = .missing
  · exact comparedAs_of_missing hmissing
  · rw [not_or] at hmissing
    have htype := typeName_eq_of_not_clash h hmissing.1 hmissing.2
    obtain ⟨ord, hord⟩ := exists_order?_of_not_clash "comparison" h
    exact ⟨_, _, comparedAs_of_order? hmissing.1 hmissing.2 htype hord⟩

theorem ComparedAs.not_clash {forth back : CompareOp → Bool} (h : a.ComparedAs b forth back) :
    ¬ a.Clash b := by
  intro hclash
  cases (CompareOp.apply_of_clash hclash .eq).symm.trans (h.apply_forth .eq)

/-- On values with an order the two opposite comparisons of an order differ. -/
theorem ComparedAs.gte_eq {forth back : CompareOp → Bool} (h : a.ComparedAs b forth back)
    (ha : a.IsOrdered) (hb : b.IsOrdered) : forth .gte = !forth .lt := by
  have htype := typeName_eq_of_not_clash h.not_clash ha.1 hb.1
  obtain ⟨ord, hord⟩ := exists_order?_of_isOrdered "comparison" ha hb htype
  have hforth (op : CompareOp) : forth op = op.holds ord :=
    Except.ok.inj ((h.apply_forth op).symm.trans (CompareOp.apply_of_order? ha.1 hb.1 hord op))
  rw [hforth, hforth]
  cases ord <;> rfl

end Value

/-! ### Filters by a comparison -/

/-- The values of the two expressions on the row are neither missing nor NaN. -/
def Expr.Ordered (left right : Expr) (row : Row) : Prop :=
  ∃ a b, left.onRow row = .ok a ∧ right.onRow row = .ok b ∧ a.IsOrdered ∧ b.IsOrdered

namespace Table

variable {t u v : Table} {columns : NameSet} {left right p : Expr} {op op' : CompareOp} {row : Row}

/-- Of the rows of `t`, each one with the property is in exactly one of the tables `u` and `v`, and
no other one is in either. They are in order. -/
def SplitInto (t : Table) (P : Row → Prop) (u v : Table) : Prop :=
  ∃ p q : Row → Bool, u.rows = t.rows.filter p ∧ v.rows = t.rows.filter q ∧
    ∀ row ∈ t.rows, (P row → q row = !p row) ∧ (¬ P row → p row = false ∧ q row = false)

/-- The row passes the filter by an expression, which has a value on it. -/
def passes (p : Expr) (row : Row) : Bool :=
  match satisfies p row with
  | .ok keep => keep
  | .error _ => false

theorem satisfies_compare {a b : Value} (hl : left.onRow row = .ok a)
    (hr : right.onRow row = .ok b) : satisfies (.compare op left right) row = op.apply a b := by
  have hrow : (Expr.compare op left right).onRow row = (do return .bool (← op.apply a b)) := by
    rw [Expr.onRow, hl, ok_bind, hr, ok_bind]
  rw [satisfies, hrow]
  rcases op.apply a b with e | keep <;> rfl

/-- If one comparison of two expressions has a value on a row, they have values that compare. -/
theorem exists_comparedAs {keep : Bool} (h : satisfies (.compare op left right) row = .ok keep) :
    ∃ a b forth back, left.onRow row = .ok a ∧ right.onRow row = .ok b ∧
      a.ComparedAs b forth back := by
  obtain ⟨w, hw, -⟩ := bind_eq_ok.mp h
  obtain ⟨a, ha, hw⟩ := bind_eq_ok.mp hw
  obtain ⟨b, hb, hw⟩ := bind_eq_ok.mp hw
  obtain ⟨holds, hholds, -⟩ := bind_eq_ok.mp hw
  have hclash : ¬ a.Clash b := by
    intro hclash
    rw [CompareOp.apply_of_clash hclash] at hholds
    cases hholds
  obtain ⟨forth, back, hcompared⟩ := Value.comparedAs_of_not_clash hclash
  exact ⟨a, b, forth, back, ha, hb, hcompared⟩

theorem passes_compare {a b : Value} {forth back : CompareOp → Bool} (hl : left.onRow row = .ok a)
    (hr : right.onRow row = .ok b) (h : a.ComparedAs b forth back) (op : CompareOp) :
    satisfies (.compare op left right) row = .ok (forth op) ∧
      passes (.compare op left right) row = forth op := by
  have hsatisfies : satisfies (.compare op left right) row = .ok (forth op) := by
    rw [satisfies_compare hl hr, h.apply_forth]
  exact ⟨hsatisfies, by rw [passes, hsatisfies]⟩

/-- A filter keeps the rows that pass it, if the expression has a value on every row. -/
theorem filter_eq_ok (ht : t.HasColumns columns)
    (h : ∀ row ∈ t.rows, ∃ keep, satisfies p row = .ok keep) :
    t.filter p = .ok { rows := t.rows.filter (passes p) } := by
  have hpasses : ∀ row ∈ t.rows, satisfies p row = .ok (passes p row) := by
    intro row hrow
    obtain ⟨keep, hkeep⟩ := h row hrow
    rw [passes, hkeep]
  rw [filter_eq, filterM_eq_ok_filter hpasses, ok_bind]
  exact ofRows_of_hasColumns fun row hrow => ht row (List.mem_of_mem_filter hrow)

/-- If the filter by one comparison succeeds, all rows have values that compare. -/
theorem comparedAs_of_filter (hu : t.filter (.compare op left right) = .ok u) :
    ∀ row ∈ t.rows, ∃ a b forth back, left.onRow row = .ok a ∧ right.onRow row = .ok b ∧
      a.ComparedAs b forth back := by
  intro row hrow
  rw [filter_eq] at hu
  obtain ⟨kept, hkept, -⟩ := bind_eq_ok.mp hu
  obtain ⟨keep, hkeep⟩ := exists_of_filterM_ok hkept hrow
  exact exists_comparedAs hkeep

/-- If the filter by one comparison succeeds, so does that by any other. -/
theorem filter_compare_eq_ok (ht : t.HasColumns columns)
    (hu : t.filter (.compare op left right) = .ok u) (op' : CompareOp) :
    t.filter (.compare op' left right)
      = .ok { rows := t.rows.filter (passes (.compare op' left right)) } := by
  refine filter_eq_ok ht fun row hrow => ?_
  obtain ⟨a, b, forth, back, hl, hr, h⟩ := comparedAs_of_filter hu row hrow
  exact ⟨forth op', (passes_compare hl hr h op').1⟩

/-- Filters by two comparisons that are opposite on the rows with a property, and false on all
others, split the rows with the property. -/
theorem exists_splitInto {P : Row → Prop} (ht : t.HasColumns columns)
    (hu : t.filter (.compare op left right) = .ok u)
    (hP : ∀ row ∈ t.rows, ∀ a b forth back, left.onRow row = .ok a → right.onRow row = .ok b →
      a.ComparedAs b forth back →
      (P row → forth op' = !forth op) ∧ (¬ P row → forth op = false ∧ forth op' = false)) :
    ∃ v, t.filter (.compare op' left right) = .ok v ∧ t.SplitInto P u v := by
  refine ⟨_, filter_compare_eq_ok ht hu op', passes (.compare op left right),
    passes (.compare op' left right), ?_, rfl, fun row hrow => ?_⟩
  · cases hu.symm.trans (filter_compare_eq_ok ht hu op)
    rfl
  · obtain ⟨a, b, forth, back, hl, hr, h⟩ := comparedAs_of_filter hu row hrow
    rw [(passes_compare hl hr h op).2, (passes_compare hl hr h op').2]
    exact hP row hrow a b forth back hl hr h

/-- The filters by `=` and by `≠` share all rows among them. -/
theorem splitInto_neq (ht : t.HasColumns columns)
    (hu : t.filter (.compare .eq left right) = .ok u) :
    ∃ v, t.filter (.compare .neq left right) = .ok v ∧ t.SplitInto (fun _ => True) u v := by
  refine exists_splitInto ht hu fun row _ a b forth back _ _ h => ?_
  exact ⟨fun _ => h.neq, fun hfalse => absurd trivial hfalse⟩

/-- The filters by `<` and by `≥` share the rows with an order among them. -/
theorem splitInto_gte (ht : t.HasColumns columns)
    (hu : t.filter (.compare .lt left right) = .ok u) :
    ∃ v, t.filter (.compare .gte left right) = .ok v ∧
      t.SplitInto (Expr.Ordered left right) u v := by
  refine exists_splitInto ht hu fun row _ a b forth back hl hr h => ⟨fun hordered => ?_, ?_⟩
  · obtain ⟨a', b', hl', hr', ha, hb⟩ := hordered
    cases hl.symm.trans hl'
    cases hr.symm.trans hr'
    exact h.gte_eq ha hb
  · intro hunordered
    have hfalse := h.unordered fun hab => hunordered ⟨a, b, hl, hr, hab⟩
    exact ⟨hfalse .lt (by decide), hfalse .gte (by decide)⟩

/-- The six comparisons of two values fail if their types clash and fit together otherwise, keys
match if the values are equal, and on rows with the same columns filters by opposite comparisons
share the rows among them: all rows for `=` and `≠`, those with an order for `<` and `≥`. -/
theorem comparisons_coherent (ht : t.HasColumns columns) (left right : Expr) :
    (∀ a b : Value,
      (a.Clash b → ∀ op : CompareOp,
        op.apply a b = .error (.typeMismatch "comparison" a.typeName b.typeName)) ∧
      (¬ a.Clash b → ∃ forth back, a.ComparedAs b forth back) ∧
      (a.sameKey b = true ↔ CompareOp.eq.apply a b = .ok true)) ∧
    (∀ u, t.filter (.compare .eq left right) = .ok u →
      ∃ v, t.filter (.compare .neq left right) = .ok v ∧ t.SplitInto (fun _ => True) u v) ∧
    ∀ u, t.filter (.compare .lt left right) = .ok u →
      ∃ v, t.filter (.compare .gte left right) = .ok v ∧
        t.SplitInto (Expr.Ordered left right) u v := by
  refine ⟨fun a b => ⟨CompareOp.apply_of_clash, ?_, Value.sameKey_iff_apply⟩, ?_, ?_⟩
  · exact Value.comparedAs_of_not_clash
  · exact fun u hu => splitInto_neq ht hu
  · exact fun u hu => splitInto_gte ht hu

/-- Marks with a double, NaN and a missing one among them. -/
def marks : Table where
  rows :=
    [.ofList [("name", .text "a"), ("mark", .int 2)],
      .ofList [("name", .text "b"), ("mark", .float 3.5)],
      .ofList [("name", .text "c"), ("mark", .float (0.0 / 0.0))],
      .ofList [("name", .text "d"), ("mark", .missing)],
      .ofList [("name", .text "e"), ("mark", .float 3.0)]]

theorem marks_comparisons :
    marks.HasColumns (.ofNames ["name", "mark"]) ∧
    (Value.int 2).Clash (.text "a") ∧ ¬ (Value.int 2).Clash (.float (0.0 / 0.0)) ∧
    CompareOp.gte.apply (.int 2) (.text "a") = .error (.typeMismatch "comparison" "number" "string") ∧
    (∃ forth back, (Value.int 2).ComparedAs (.float (0.0 / 0.0)) forth back) ∧
    (∃ u v, marks.filter (.compare .eq (.column "mark") (.literal (.int 3))) = .ok u ∧
      marks.filter (.compare .neq (.column "mark") (.literal (.int 3))) = .ok v ∧
      u.rows.length = 1 ∧ v.rows.length = 4 ∧ marks.SplitInto (fun _ => True) u v) ∧
    ∃ u v, marks.filter (.compare .lt (.column "mark") (.literal (.int 3))) = .ok u ∧
      marks.filter (.compare .gte (.column "mark") (.literal (.int 3))) = .ok v ∧
      u.rows.length = 1 ∧ v.rows.length = 2 ∧
      marks.SplitInto (Expr.Ordered (.column "mark") (.literal (.int 3))) u v := by
  have ht : marks.HasColumns (.ofNames ["name", "mark"]) := by
    unfold HasColumns
    decide
  obtain ⟨hvalues, heq, hlt⟩ := comparisons_coherent ht (.column "mark") (.literal (.int 3))
  have hclash : (Value.int 2).Clash (.text "a") := by decide
  have hsame : ¬ (Value.int 2).Clash (.float (0.0 / 0.0)) := by decide
  refine ⟨ht, hclash, hsame, (hvalues _ _).1 hclash .gte, (hvalues _ _).2.1 hsame, ?_, ?_⟩
  · obtain ⟨v, hv, hsplit⟩ := heq _ rfl
    exact ⟨_, v, rfl, hv, rfl, by cases hv; rfl, hsplit⟩
  · obtain ⟨v, hv, hsplit⟩ := hlt _ rfl
    exact ⟨_, v, rfl, hv, rfl, by cases hv; rfl, hsplit⟩

end Table

end TablePipeline
