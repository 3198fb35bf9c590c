import TablePipeline.Proofs.Arithmetic
import TablePipeline.Proofs.Typing
import TablePipeline.Value.Aggregate
import Mathlib.Algebra.Order.BigOperators.Group.List
import Mathlib.Algebra.Order.Ring.Int
import Mathlib.Data.List.Infix
/-!
# Sums of integers

A sum of integers is kept as an integer while the running total fits in 64 bits. One running total
that does not fit makes it a double for good, even where the sum itself fits. So the order of the
values matters, unless the gains and the losses alone fit as well (`AggregateFn.sum_wholes`).
-/

namespace TablePipeline

open Outcome

/-- The values that are not missing. -/
def present (values : List Value) : List Value := values.filter (!·.isMissing)

theorem mem_present {values : List Value} {v : Value} :
    v ∈ present values ↔ v ∈ values ∧ v.isMissing = false := by
  simp [present]

theorem ne_missing_of_mem_present {values : List Value} {v : Value} (h : v ∈ present values) :
    v ≠ .missing := by
  rintro rfl
  cases (mem_present.mp h).2

namespace Value

/-- The integer that a value counts for in an exact sum. -/
def amount : Value → Int
  | .int n => n.toInt
  | _ => 0

variable {values part order : List Value} {v : Value}

/-- The value is an integer or missing. -/
def isWhole : Value → Bool
  | .missing | .int _ => true
  | _ => false

/-- The exact sum of the values. -/
def total (values : List Value) : Int := (values.map amount).sum

/-- The exact sum of the values above zero. -/
def gains (values : List Value) : Int := total (values.filter (0 < ·.amount))

/-- The exact sum of the values below zero. -/
def losses (values : List Value) : Int := total (values.filter (·.amount < 0))

/-- The sum of the values as doubles, from the first to the last. -/
def doubleTotal (values : List Value) : Float := (values.filterMap toFloat?).foldl (· + ·) 0.0

/-- The sums of the first values fit in 64 bits, up to the sum of all of them. -/
def RunsWithin (values : List Value) : Prop := ∀ part, part <+: values → Word.Fits (total part)

instance (values : List Value) : Decidable (RunsWithin values) :=
  decidable_of_iff (∀ part ∈ values.inits, Word.Fits (total part)) (by simp [RunsWithin, List.mem_inits])

@[simp]
theorem total_cons (v : Value) (values : List Value) :
    total (v :: values) = v.amount + total values := by
  simp [total]

@[simp]
theorem total_append (values order : List Value) :
    total (values ++ order) = total values + total order := by
  simp [total]

theorem total_perm (h : order.Perm values) : total order = total values :=
  (h.map amount).sum_eq

theorem fits_amount (v : Value) : Word.Fits v.amount := by
  cases v with
  | int n => exact Word.fits_toInt n
  | missing | bool _ | float _ | text _ => exact (by decide : Word.Fits 0)

theorem runsWithin_nil : RunsWithin [] := by decide

theorem runsWithin_concat :
    RunsWithin (values ++ [v]) ↔ RunsWithin values ∧ Word.Fits (total (values ++ [v])) := by
  simp [RunsWithin, List.prefix_concat_iff, or_imp, forall_and, and_comm]

theorem RunsWithin.fits_total (h : RunsWithin values) : Word.Fits (total values) :=
  h values (List.prefix_refl values)

/-! ### Orders -/

/-- The sum of some of the values lies between the losses and the gains. -/
theorem total_between (h : part.Sublist values) :
    losses values ≤ total part ∧ total part ≤ gains values := by
  unfold losses gains
  induction h with
  | slnil => decide
  | cons v _ ih | cons_cons v _ ih =>
    simp only [List.filter_cons]
    split <;> split <;> simp_all <;> omega

/-- If the gains and the losses fit, so does each sum on the way, in every order. -/
theorem runsWithin_of_fits (hgains : Word.Fits (gains values)) (hlosses : Word.Fits (losses values))
    (h : order.Perm values) : RunsWithin order := by
  intro part hpart
  obtain ⟨hlower, hupper⟩ := total_between hpart.sublist
  have hgains' : gains order = gains values := total_perm (h.filter _)
  have hlosses' : losses order = losses values := total_perm (h.filter _)
  unfold Word.Fits at hgains hlosses ⊢
  omega

/-- The values that pass a test can come first, so that their sum is one on the way. -/
theorem fits_of_first (h : ∀ order, order.Perm values → RunsWithin order) (p : Value → Bool) :
    Word.Fits (total (values.filter p)) :=
  h _ (List.filter_append_perm p values) _ (List.prefix_append _ _)

/-- Among the addends is one of the sign of the sum. -/
theorem exists_same_sign (h : values ≠ []) :
    ∃ v ∈ values, (0 ≤ v.amount ↔ 0 ≤ total values) := by
  by_cases hsign : 0 ≤ total values
  · obtain ⟨v, hv, hle⟩ :=
      List.exists_le_of_sum_le h (fun _ => 0) amount (by simpa [total] using hsign)
    exact ⟨v, hv, iff_of_true hle hsign⟩
  · obtain ⟨v, hv, hlt⟩ :=
      List.exists_lt_of_sum_lt (l := values) amount (fun _ => 0) (by simpa [total] using hsign)
    exact ⟨v, hv, iff_of_false (Int.not_le.mpr hlt) hsign⟩

/-- If the sum fits, there is an order in which all sums on the way do. Its last value is of the
sign of the sum, so that the sum of the others is nearer to zero. -/
theorem exists_order_runsWithin (h : Word.Fits (total values)) :
    ∃ order, order.Perm values ∧ RunsWithin order := by
  induction hlength : values.length generalizing values with
  | zero =>
    obtain rfl := List.length_eq_zero_iff.mp hlength
    exact ⟨[], .rfl, runsWithin_nil⟩
  | succ k ih =>
    obtain ⟨v, hv, hsign⟩ := exists_same_sign (List.ne_nil_of_length_eq_add_one hlength)
    obtain ⟨before, after, rfl⟩ := List.append_of_mem hv
    have hrest : Word.Fits (total (before ++ after)) := by
      have hamount := fits_amount v
      simp only [total_append, total_cons] at h hsign ⊢
      unfold Word.Fits at h hamount ⊢
      omega
    obtain ⟨order, horder, hruns⟩ := ih hrest (by simp at hlength ⊢; omega)
    have hperm : (order ++ [v]).Perm (before ++ v :: after) :=
      (List.perm_append_singleton v order).trans ((horder.cons v).trans List.perm_middle.symm)
    refine ⟨order ++ [v], hperm, runsWithin_concat.mpr ⟨hruns, ?_⟩⟩
    rw [total_perm hperm]
    exact h

/-- Every sum on the way fits in all orders just if the gains and the losses do. -/
theorem forall_runsWithin_iff :
    (∀ order, order.Perm values → RunsWithin order) ↔
      Word.Fits (gains values) ∧ Word.Fits (losses values) := by
  constructor
  · intro hruns
    exact ⟨fits_of_first hruns _, fits_of_first hruns _⟩
  · intro hfits order horder
    exact runsWithin_of_fits hfits.1 hfits.2 horder

end Value

/-! ### The running sum -/

namespace AggregateFn

variable {values order : List Value} {t : Total}

/-- What the running sum of the values is. -/
structure Total.Of (t : Total) (values : List Value) : Prop where
  exact_iff : ∀ n, t.exact = some n ↔
    (∀ v ∈ values, v.isWhole = true) ∧ Value.RunsWithin values ∧ n.toInt = Value.total values
  approximate_eq : t.approximate = Value.doubleTotal values

namespace Total.Of

theorem nil : Total.Of {} [] where
  exact_iff n := by
    rw [and_iff_right nofun, and_iff_right Value.runsWithin_nil, Option.some_inj,
      ← Int64.toInt_inj, eq_comm]
    rfl
  approximate_eq := rfl

theorem missing (h : t.Of values) : t.Of (values ++ [.missing]) where
  exact_iff n := by
    have htotal : Value.total (values ++ [.missing]) = Value.total values := by
      simp [Value.total, Value.amount]
    have hruns : Value.RunsWithin (values ++ [.missing]) ↔ Value.RunsWithin values := by
      rw [Value.runsWithin_concat, htotal]
      exact and_iff_left_of_imp Value.RunsWithin.fits_total
    rw [h.exact_iff, hruns, htotal]
    simp [Value.isWhole, or_imp, forall_and]
  approximate_eq := by
    rw [h.approximate_eq, Value.doubleTotal, Value.doubleTotal, List.filterMap_append]
    exact congrArg _ (List.append_nil _).symm

theorem int (h : t.Of values) (k : Int64) : Total.Of
    { exact := t.exact.bind fun total => Word.signed? (total.toInt + k.toInt)
      approximate := t.approximate + Binary64.ofInt k.toInt } (values ++ [.int k]) where
  exact_iff n := by
    have htotal : Value.total (values ++ [.int k]) = Value.total values + k.toInt := by
      simp [Value.total, Value.amount]
    have hwhole : (∀ v ∈ values ++ [.int k], v.isWhole = true) ↔ ∀ v ∈ values, v.isWhole = true := by
      simp [Value.isWhole, or_imp, forall_and]
    rw [Option.bind_eq_some_iff, hwhole, Value.runsWithin_concat, htotal]
    constructor
    · intro hexact
      obtain ⟨m, hm, hsigned⟩ := hexact
      obtain ⟨hall, hruns, hm⟩ := (h.exact_iff m).mp hm
      have hn := Word.signed?_eq_some_iff.mp hsigned
      rw [hm] at hn
      exact ⟨hall, ⟨hruns, hn ▸ Word.fits_toInt n⟩, hn⟩
    · intro hexact
      obtain ⟨hall, ⟨hruns, -⟩, hn⟩ := hexact
      obtain ⟨m, -, hm⟩ := Word.exists_signed? hruns.fits_total
      refine ⟨m, (h.exact_iff m).mpr ⟨hall, hruns, hm⟩, ?_⟩
      rw [Word.signed?_eq_some_iff, hm, hn]
  approximate_eq := by
    rw [h.approximate_eq]
    simp [Value.doubleTotal, Value.toFloat?]

theorem float (h : t.Of values) (x : Float) : Total.Of
    { exact := none, approximate := t.approximate + x } (values ++ [.float x]) where
  exact_iff n := by simp [Value.isWhole]
  approximate_eq := by
    rw [h.approximate_eq]
    simp [Value.doubleTotal, Value.toFloat?]

/-- A step of the running sum. -/
theorem add {context : String} {t' : Total} (h : t.Of values) (hadd : t.add context v = .ok t') :
    t'.Of (values ++ [v]) := by
  cases v with
  | int k =>
    cases hadd
    exact h.int k
  | float x =>
    cases hadd
    exact h.float x
  | missing | bool _ | text _ => cases hadd

/-- The fold keeps the running sum of the values so far. -/
theorem of_foldlM {context : String}
    (h : (present values).foldlM (Total.add context) {} = .ok t) : t.Of values := by
  induction values using List.reverseRecOn generalizing t with
  | nil =>
    cases h
    exact nil
  | append_singleton values v ih =>
    rw [present, List.filter_append, List.foldlM_append] at h
    obtain ⟨before, hbefore, h⟩ := bind_eq_ok.mp h
    by_cases hmissing : v.isMissing = true
    · obtain rfl := Value.isMissing_iff.mp hmissing
      cases h
      exact (ih hbefore).missing
    · exact (ih hbefore).add (by simpa [hmissing] using h)

end Total.Of

theorem exists_total (context : String) (h : ∀ v ∈ values, v.isWhole = true) :
    ∃ t, (present values).foldlM (Total.add context) {} = .ok t ∧ t.Of values := by
  have hstep : ∀ t : Total, True → ∀ v ∈ present values,
      ∃ t', t.add context v = .ok t' ∧ True := by
    intro t _ v hv
    obtain ⟨hv, hmissing⟩ := mem_present.mp hv
    have hwhole := h v hv
    cases v with
    | int k => exact ⟨_, rfl, trivial⟩
    | missing => cases hmissing
    | bool _ | float _ | text _ => cases hwhole
  obtain ⟨t, ht, -⟩ := exists_foldlM_eq_ok hstep trivial
  exact ⟨t, ht, .of_foldlM ht⟩

theorem sum_of_foldlM (h : (present values).foldlM (Total.add sum.code) {} = .ok t) :
    sum.apply values = .ok (t.exact.elim (.float t.approximate) .int) := by
  show sumOf sum.code (present values) = _
  rw [sumOf, h, ok_bind]
  cases t.exact <;> rfl

/-- A sum is an integer if all values are, and every sum on the way fits. -/
theorem sum_eq_int_iff {n : Int64} : sum.apply values = .ok (.int n) ↔
    (∀ v ∈ values, v.isWhole = true) ∧ Value.RunsWithin values ∧ n.toInt = Value.total values := by
  have hresult {t : Total} (ht : (present values).foldlM (Total.add sum.code) {} = .ok t) :
      sum.apply values = .ok (.int n) ↔ t.exact = some n := by
    rw [sum_of_foldlM ht]
    cases t.exact <;> simp
  constructor
  · intro h
    obtain ⟨t, ht, -⟩ := bind_eq_ok.mp h
    exact ((Total.Of.of_foldlM ht).exact_iff n).mp ((hresult ht).mp h)
  · intro h
    obtain ⟨t, ht, hof⟩ := exists_total sum.code h.1
    exact (hresult ht).mpr ((hof.exact_iff n).mpr h)

theorem sum_of_runsWithin (h : ∀ v ∈ values, v.isWhole = true) (hruns : Value.RunsWithin values) :
    ∃ n, sum.apply values = .ok (.int n) ∧ n.toInt = Value.total values := by
  obtain ⟨n, -, hn⟩ := Word.exists_signed? hruns.fits_total
  exact ⟨n, sum_eq_int_iff.mpr ⟨h, hruns, hn⟩, hn⟩

theorem sum_of_not_runsWithin (h : ∀ v ∈ values, v.isWhole = true)
    (hruns : ¬ Value.RunsWithin values) :
    sum.apply values = .ok (.float (Value.doubleTotal values)) := by
  obtain ⟨t, hfold, ht⟩ := exists_total sum.code h
  have hexact : t.exact = none :=
    Option.eq_none_iff_forall_ne_some.mpr fun n hn => hruns ((ht.exact_iff n).mp hn).2.1
  rw [sum_of_foldlM hfold, hexact, ht.approximate_eq]
  rfl

/-- A sum that fits is the same in all orders just if the gains and the losses fit as well. -/
theorem sum_perm (h : ∀ v ∈ values, v.isWhole = true) (hfits : Word.Fits (Value.total values)) :
    (∀ order, order.Perm values → sum.apply order = sum.apply values) ↔
      Word.Fits (Value.gains values) ∧ Word.Fits (Value.losses values) := by
  have hwhole {order : List Value} (horder : order.Perm values) : ∀ v ∈ order, v.isWhole = true :=
    fun v hv => h v (horder.subset hv)
  rw [← Value.forall_runsWithin_iff]
  constructor
  · -- The sum is an integer in one order, and so in all of them.
    intro hsame order horder
    obtain ⟨good, hgood, hruns⟩ := Value.exists_order_runsWithin hfits
    obtain ⟨n, hn, -⟩ := sum_of_runsWithin (hwhole hgood) hruns
    have hsum : sum.apply order = .ok (.int n) := by rw [hsame order horder, ← hsame good hgood, hn]
    exact (sum_eq_int_iff.mp hsum).2.1
  · intro hruns order horder
    obtain ⟨m, hm, hmtotal⟩ := sum_of_runsWithin (hwhole horder) (hruns order horder)
    obtain ⟨n, hn, hntotal⟩ := sum_of_runsWithin h (hruns values .rfl)
    have heq : m = n := by
      rw [← Int64.toInt_inj, hmtotal, hntotal, Value.total_perm horder]
    rw [hm, hn, heq]

/-- The sum of integers and missing values is the exact one if every sum on the way fits in 64 bits,
and that of the doubles otherwise. If the sum itself fits, it is the same in all orders of the values
just if the gains and the losses fit. -/
theorem sum_wholes (h : ∀ v ∈ values, v.isWhole = true) :
    (Value.RunsWithin values →
      ∃ n, sum.apply values = .ok (.int n) ∧ n.toInt = Value.total values) ∧
    (¬ Value.RunsWithin values → sum.apply values = .ok (.float (Value.doubleTotal values))) ∧
    (Word.Fits (Value.total values) →
      ((∀ order, order.Perm values → sum.apply order = sum.apply values) ↔
        Word.Fits (Value.gains values) ∧ Word.Fits (Value.losses values))) :=
  ⟨sum_of_runsWithin h, sum_of_not_runsWithin h, sum_perm h⟩

/-- The sum fits, but not that of the first three values. -/
def overshooting : List Value := [.int Int64.maxValue, .missing, .int 1, .int (-1)]

/-- The same values in an order in which nothing overflows. -/
def balanced : List Value := [.int (-1), .missing, .int Int64.maxValue, .int 1]

theorem sum_overshooting_balanced :
    (∀ v ∈ overshooting, v.isWhole = true) ∧ (∀ v ∈ balanced, v.isWhole = true) ∧
    Word.Fits (Value.total overshooting) ∧ ¬ Value.RunsWithin overshooting ∧
    sum.apply overshooting = .ok (.float 9223372036854775807) ∧ Value.RunsWithin balanced ∧
    (∃ n, sum.apply balanced = .ok (.int n) ∧ n.toInt = 9223372036854775807) ∧
    ¬ ∀ order, order.Perm overshooting → sum.apply order = sum.apply overshooting := by
  have hover : ∀ v ∈ overshooting, v.isWhole = true := by decide
  have hbalanced : ∀ v ∈ balanced, v.isWhole = true := by decide
  have hfits : Word.Fits (Value.total overshooting) := by decide
  have hover' : ¬ Value.RunsWithin overshooting := by decide
  have hbalanced' : Value.RunsWithin balanced := by decide
  obtain ⟨-, hdouble, hperm⟩ := sum_wholes hover
  obtain ⟨hint, -, -⟩ := sum_wholes hbalanced
  refine ⟨hover, hbalanced, hfits, hover', hdouble hover', hbalanced', hint hbalanced', ?_⟩
  rw [hperm hfits]
  decide

/-- The greatest integer, one more and one less have a sum that fits, and it is a double unless the
last one comes before the second one. -/
theorem sum_overflows_on_the_way :
    (∀ v ∈ [Value.int Int64.maxValue, .int 1, .int (-1)], v.isWhole = true) ∧
    Word.Fits (Value.total [.int Int64.maxValue, .int 1, .int (-1)]) ∧
    sum.apply [.int Int64.maxValue, .int 1, .int (-1)] = .ok (.float 9223372036854775807) ∧
    [Value.int Int64.maxValue, .int (-1), .int 1].Perm [.int Int64.maxValue, .int 1, .int (-1)] ∧
    sum.apply [.int Int64.maxValue, .int (-1), .int 1] = .ok (.int Int64.maxValue) ∧
    sum.apply [.int Int64.maxValue, .int 1, .int (-1)]
      ≠ sum.apply [.int Int64.maxValue, .int (-1), .int 1] :=
  ⟨by decide, by decide, rfl, .cons _ (.swap _ _ _), rfl, nofun⟩

end AggregateFn

end TablePipeline
