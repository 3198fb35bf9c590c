import TablePipeline.Proofs.Comparison
/-!
# The strict order of values

A value beats another one if it is less, or greater, as is asked for. This is a strict order
(`Value.beats_trans`), although values that are equal to one and the same value may differ: integers
round to doubles in their order, and a double can be equal to several of them. Without doubles the
order is total on the values of a type (`Value.Exact`).
-/

namespace TablePipeline

/-- A comparison that goes from the first to the second and on to the third also goes to the third
at once. -/
theorem compare_trans {α : Type} [Ord α] [Std.TransOrd α] {a b c : α} {ord : Ordering}
    (hab : compare a b = ord) (hbc : compare b c = ord) : compare a c = ord := by
  cases ord with
  | lt => exact Std.TransCmp.lt_trans hab hbc
  | eq => exact Std.TransCmp.eq_trans hab hbc
  | gt => exact Std.TransCmp.gt_trans hab hbc

namespace Value

/-- A value of a type that is compared exactly. -/
inductive Exact : CellType → Value → Prop
  | bool (b : Bool) : Exact .boolean (.bool b)
  | int (n : Int64) : Exact .number (.int n)
  | text (s : String) : Exact .text (.text s)

/-- The order of the first value to the second is the one that is kept. -/
def Beats (context : String) (keep : Ordering) (a b : Value) : Prop :=
  a.order? context b = .ok (some keep)

variable {a b c : Value} {context : String} {keep : Ordering} {type : CellType}

theorem exists_exact (hmissing : a ≠ .missing) (hfloat : a.isFloat = false) :
    ∃ type, a.Exact type := by
  cases a with
  | missing => exact absurd rfl hmissing
  | bool b => exact ⟨_, .bool b⟩
  | int n => exact ⟨_, .int n⟩
  | float x => cases hfloat
  | text s => exact ⟨_, .text s⟩

namespace Exact

theorem of_typeName (ha : a.Exact type) (h : a.typeName = b.typeName) (hfloat : b.isFloat = false) :
    b.Exact type := by
  cases ha <;> cases b <;> simp_all [typeName, isFloat] <;> constructor

theorem typeName_eq (ha : a.Exact type) (hb : b.Exact type) : a.typeName = b.typeName := by
  cases ha <;> cases hb <;> rfl

theorem exists_order? (context : String) (ha : a.Exact type) (hb : b.Exact type) :
    ∃ ord, a.order? context b = .ok (some ord) := by
  cases ha <;> cases hb <;> exact ⟨_, rfl⟩

theorem eq_of_order? (ha : a.Exact type) (hb : b.Exact type)
    (h : a.order? context b = .ok (some .eq)) : a = b := by
  cases ha <;> cases hb <;> simp_all [order?, Int64.toInt_inj]

theorem order?_trans {ord : Ordering} (ha : a.Exact type) (hb : b.Exact type) (hc : c.Exact type)
    (hab : a.order? context b = .ok (some ord)) (hbc : b.order? context c = .ok (some ord)) :
    a.order? context c = .ok (some ord) := by
  cases ha <;> cases hb <;> cases hc <;> simp only [order?, Except.ok.injEq, Option.some.injEq] at *
  all_goals exact compare_trans hab hbc

end Exact

/-! Numbers are in a strict order, although a double may be equal to two integers that differ. -/

theorem typeName_of_isFloat (h : a.isFloat = true) : a.typeName = "number" := by
  cases a <;> first | rfl | cases h

theorem isOrdered_of_order? {ord : Ordering} (h : a.order? context b = .ok (some ord)) :
    a.IsOrdered ∧ b.IsOrdered ∧ a.typeName = b.typeName := by
  have hnan (hnan : a.isNaN = true ∨ b.isNaN = true) : False := order?_of_isNaN context hnan ord h
  simp only [not_or, Bool.not_eq_true, imp_false] at hnan
  have hmissing : a ≠ .missing ∧ b ≠ .missing := by
    cases a <;> cases b <;> simp_all [order?]
  have htype := typeName_eq_of_not_clash (not_clash_of_order? h) hmissing.1 hmissing.2
  exact ⟨⟨hmissing.1, hnan.1⟩, ⟨hmissing.2, hnan.2⟩, htype⟩

/-- Integers compare exactly, whatever their places are. -/
theorem exists_places {r s : Int} (context : String) (ha : a.rank? = some r)
    (hb : b.rank? = some s) (hfloat : ¬ (a.isFloat = true ∨ b.isFloat = true)) :
    ∃ m n : Int, a.order? context b = .ok (some (compare m n)) ∧
      r = Binary64.place m ∧ s = Binary64.place n := by
  simp only [not_or, Bool.not_eq_true] at hfloat
  obtain ⟨m, rfl⟩ := exists_int_of_rank? ha hfloat.1
  obtain ⟨n, rfl⟩ := exists_int_of_rank? hb hfloat.2
  have hr := Option.some.inj ((Binary64.rank?_ofInt m).symm.trans ha)
  have hs := Option.some.inj ((Binary64.rank?_ofInt n).symm.trans hb)
  exact ⟨m.toInt, n.toInt, rfl, hr.symm, hs.symm⟩

theorem rank_lt {r s : Int} (ha : a.rank? = some r) (hb : b.rank? = some s)
    (hfloat : a.isFloat = true ∨ b.isFloat = true) (h : a.order? context b = .ok (some .lt)) :
    r < s := by
  rw [order?_eq_rank context hfloat ha hb] at h
  simpa [compare_lt_iff_lt] using h

theorem rank_le {r s : Int} (ha : a.rank? = some r) (hb : b.rank? = some s)
    (h : a.order? context b = .ok (some .lt)) : r ≤ s := by
  by_cases hfloat : a.isFloat = true ∨ b.isFloat = true
  · exact Int.le_of_lt (rank_lt ha hb hfloat h)
  · obtain ⟨m, n, hord, rfl, rfl⟩ := exists_places context ha hb hfloat
    rw [hord] at h
    have hlt : m < n := by simpa [compare_lt_iff_lt] using h
    exact Binary64.place_mono (Int.le_of_lt hlt)

theorem order?_lt_of_rank_lt {r s : Int} (ha : a.rank? = some r) (hb : b.rank? = some s)
    (h : r < s) : a.order? context b = .ok (some .lt) := by
  by_cases hfloat : a.isFloat = true ∨ b.isFloat = true
  · rw [order?_eq_rank context hfloat ha hb, compare_lt_iff_lt.mpr h]
  · obtain ⟨m, n, hord, rfl, rfl⟩ := exists_places context ha hb hfloat
    have hlt : m < n := Int.not_le.mp fun hle => Int.not_le.mpr h (Binary64.place_mono hle)
    rw [hord, compare_lt_iff_lt.mpr hlt]

/-- Of three values in order, the first one is less than the last one. A double among them is the
reason that their places differ. -/
theorem order?_lt_trans (hab : a.order? context b = .ok (some .lt))
    (hbc : b.order? context c = .ok (some .lt)) : a.order? context c = .ok (some .lt) := by
  obtain ⟨ha, hb, habtype⟩ := isOrdered_of_order? hab
  obtain ⟨-, hc, hbctype⟩ := isOrdered_of_order? hbc
  by_cases hfloat : a.isFloat = true ∨ b.isFloat = true ∨ c.isFloat = true
  · have hnumber : a.typeName = "number" := by
      rcases hfloat with h | h | h
      · exact typeName_of_isFloat h
      · rw [habtype, typeName_of_isFloat h]
      · rw [habtype, hbctype, typeName_of_isFloat h]
    obtain ⟨r, hr⟩ := exists_rank? hnumber ha.2
    obtain ⟨s, hs⟩ := exists_rank? (habtype ▸ hnumber) hb.2
    obtain ⟨t, ht⟩ := exists_rank? (hbctype ▸ habtype ▸ hnumber) hc.2
    refine order?_lt_of_rank_lt hr ht ?_
    rcases hfloat with h | h | h
    · exact Int.lt_of_lt_of_le (rank_lt hr hs (.inl h) hab) (rank_le hs ht hbc)
    · exact Int.lt_of_lt_of_le (rank_lt hr hs (.inr h) hab) (rank_le hs ht hbc)
    · exact Int.lt_of_le_of_lt (rank_le hr hs hab) (rank_lt hs ht (.inr h) hbc)
  · simp only [not_or, Bool.not_eq_true] at hfloat
    obtain ⟨type, haexact⟩ := exists_exact ha.1 hfloat.1
    have hbexact := haexact.of_typeName habtype hfloat.2.1
    exact haexact.order?_trans hbexact (hbexact.of_typeName hbctype hfloat.2.2) hab hbc

theorem not_beats_self (hkeep : keep ≠ .eq) : ¬ a.Beats context keep a := by
  intro h
  have hswap := h.symm.trans (order?_swap h)
  cases keep with
  | eq => exact hkeep rfl
  | lt | gt => cases hswap

theorem beats_trans (hkeep : keep ≠ .eq) (hab : a.Beats context keep b)
    (hbc : b.Beats context keep c) : a.Beats context keep c := by
  cases keep with
  | lt => exact order?_lt_trans hab hbc
  | eq => exact absurd rfl hkeep
  | gt => exact order?_swap (order?_lt_trans (order?_swap hbc) (order?_swap hab))

theorem order?_eq_of_not_beats {ord : Ordering} (h : a.order? context b = .ok (some ord))
    (hkeep : keep ≠ .eq) (hab : ¬ a.Beats context keep b) (hba : ¬ b.Beats context keep a) :
    ord = .eq := by
  by_contra heq
  have hswap : ord = keep ∨ ord.swap = keep := by
    cases ord <;> cases keep <;> simp_all
  rcases hswap with rfl | rfl
  · exact hab h
  · exact hba (order?_swap h)

/-- Two values of one type neither of which beats the other one are the same key. -/
theorem sameKey_of_not_beats (ha : a.IsOrdered) (hb : b.IsOrdered) (htype : a.typeName = b.typeName)
    (hkeep : keep ≠ .eq) (hab : ¬ a.Beats context keep b) (hba : ¬ b.Beats context keep a) :
    a.sameKey b = true := by
  obtain ⟨ord, hord⟩ := exists_order?_of_isOrdered context ha hb htype
  obtain rfl := order?_eq_of_not_beats hord hkeep hab hba
  have hcompare := (order?_eq_ok_iff context "comparison").mp hord
  exact sameKey_iff_apply.mpr (CompareOp.apply_of_order? ha.1 hb.1 hcompare .eq)

namespace Exact

/-- Two values neither of which beats the other one are equal. -/
theorem eq_of_not_beats (ha : a.Exact type) (hb : b.Exact type) (hkeep : keep ≠ .eq)
    (hab : ¬ a.Beats context keep b) (hba : ¬ b.Beats context keep a) : a = b := by
  obtain ⟨ord, hord⟩ := ha.exists_order? context hb
  obtain rfl := order?_eq_of_not_beats hord hkeep hab hba
  exact ha.eq_of_order? hb hord

end Exact

end Value

/-- A value of the list that no other one beats. -/
structure Best (context : String) (keep : Ordering) (values : List Value) (best : Value) :
    Prop where
  mem : best ∈ values
  unbeaten : ∀ v ∈ values, ¬ v.Beats context keep best

namespace Best

variable {context : String} {keep : Ordering} {type : CellType} {values whole bests : List Value}
  {parts : List (List Value)} {a b : Value}

theorem singleton (hkeep : keep ≠ .eq) : Best context keep [a] a where
  mem := List.mem_cons_self
  unbeaten v hv := by
    rw [List.mem_singleton.mp hv]
    exact Value.not_beats_self hkeep

theorem unique (ha : Best context keep values a) (hb : Best context keep values b)
    (hexact : ∀ v ∈ values, v.Exact type) (hkeep : keep ≠ .eq) : a = b :=
  (hexact a ha.mem).eq_of_not_beats (hexact b hb.mem) hkeep (hb.unbeaten a ha.mem)
    (ha.unbeaten b hb.mem)

end Best

end TablePipeline
