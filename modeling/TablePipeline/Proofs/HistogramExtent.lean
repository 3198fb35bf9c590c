import TablePipeline.Proofs.Display
import TablePipeline.Proofs.GroupedSummary
import TablePipeline.Proofs.JsonValues
/-!
# The extent of a histogram

The extent of a histogram and the least and the greatest value of its column come from two folds.
The first one compares doubles and keeps the later one of two that are equal, the second one compares
integers exactly and keeps the earlier one. Integers are rounded to doubles in their order, so that
both come to the same ends (`Plot.histogram_extent`): an end of some values is a number among them
that leads to all of them (`Value.IsEnd`), and two such numbers are equal as doubles.
-/

namespace TablePipeline

open Outcome

/-! ### Doubles in order -/

namespace Binary64

variable {keep : Ordering} {x y z : Float}

/-- The doubles compare as is asked for, or they are equal. So `Leads .lt` is `≤`, and `Leads .gt`
is `≥`. -/
def Leads (keep : Ordering) (x y : Float) : Prop :=
  compare? x y = some keep ∨ compare? x y = some .eq

/-- Of two doubles the one that compares as is asked for, the second one if they are equal. -/
def leader (keep : Ordering) (x y : Float) : Float := if compare? x y = some keep then x else y

theorem isNaN_of_isFinite (h : isFinite x = true) : isNaN x = false := by
  simp only [isFinite, isNaN, decide_eq_true_eq, decide_eq_false_iff_not] at *
  omega

theorem compare?_self (hx : isNaN x = false) : compare? x x = some .eq := by
  obtain ⟨r, hr⟩ := exists_rank? hx
  exact compare?_eq_iff.mpr ⟨r, hr, hr⟩

theorem compare?_eq_some_iff {ord : Ordering} : compare? x y = some ord ↔
    ∃ r s, rank? x = some r ∧ rank? y = some s ∧ compare r s = ord := by
  unfold compare?
  cases rank? x <;> cases rank? y <;> simp

theorem exists_compare? (hx : isNaN x = false) (hy : isNaN y = false) :
    ∃ ord, compare? x y = some ord := by
  obtain ⟨r, hr⟩ := exists_rank? hx
  obtain ⟨s, hs⟩ := exists_rank? hy
  exact ⟨compare r s, compare?_eq_some_iff.mpr ⟨r, s, hr, hs, rfl⟩⟩

theorem compare?_trans {ord : Ordering} (hxy : compare? x y = some ord)
    (hyz : compare? y z = some ord) : compare? x z = some ord := by
  obtain ⟨r, s, hx, hy, hrs⟩ := compare?_eq_some_iff.mp hxy
  obtain ⟨s', t, hy', hz, hst⟩ := compare?_eq_some_iff.mp hyz
  obtain rfl : s = s' := Option.some.inj (hy.symm.trans hy')
  exact compare?_eq_some_iff.mpr ⟨r, t, hx, hz, compare_trans hrs hst⟩

/-- Equal doubles compare alike. -/
theorem compare?_of_eq (h : compare? x y = some .eq) (z : Float) : compare? x z = compare? y z := by
  obtain ⟨r, hx, hy⟩ := compare?_eq_iff.mp h
  rw [compare?, compare?, hx, hy]

namespace Leads

theorem not_isNaN (h : Leads keep x x) : isNaN x = false := by
  by_contra hnan
  rw [Bool.not_eq_false] at hnan
  rw [Leads, compare?_of_isNaN (.inl hnan)] at h
  simp at h

theorem swap (h : Leads keep x y) : Leads keep.swap y x := by
  unfold Leads at *
  rw [compare?_swap x y]
  rcases h with h | h <;> simp [h]

theorem trans (hxy : Leads keep x y) (hyz : Leads keep y z) : Leads keep x z := by
  rcases hxy with hxy | hxy
  · rcases hyz with hyz | hyz
    · exact .inl (compare?_trans hxy hyz)
    · have hzy : compare? z x = compare? y x := (compare?_of_eq hyz x).symm
      exact .inl (by rw [compare?_swap z x, hzy, ← compare?_swap y x, hxy])
  · unfold Leads
    rwa [compare?_of_eq hxy z]

/-- Doubles that lead to each other are equal. -/
theorem antisymm (hkeep : keep ≠ .eq) (hxy : Leads keep x y) (hyx : Leads keep y x) :
    compare? x y = some .eq := by
  rcases hxy with hxy | hxy
  · have hswap : Leads keep.swap x y := hyx.swap
    unfold Leads at hswap
    rw [hxy] at hswap
    cases keep <;> simp_all
  · exact hxy

end Leads

/-- Where the first double does not lead to the second one, the second one is the better one. -/
theorem leads_or (hkeep : keep ≠ .eq) (hx : isNaN x = false) (hy : isNaN y = false) :
    Leads keep x y ∨ compare? y x = some keep := by
  obtain ⟨ord, hord⟩ := exists_compare? hx hy
  unfold Leads
  rw [compare?_swap x y, hord]
  cases ord <;> cases keep <;> simp_all

theorem leads_leader (hkeep : keep ≠ .eq) (hx : isNaN x = false) (hy : isNaN y = false) :
    Leads keep (leader keep x y) x ∧ Leads keep (leader keep x y) y := by
  unfold leader
  split
  · next h => exact ⟨.inr (compare?_self hx), .inl h⟩
  · next h => exact ⟨(leads_or hkeep hy hx).resolve_right h, .inr (compare?_self hy)⟩

end Binary64

/-! ### Values at one end -/

namespace Value

variable {context : String} {keep : Ordering} {values : List Value} {a b v : Value} {x y : Float}

/-- The value is missing, or a number that is neither infinite nor NaN. -/
def IsMeasure (v : Value) : Prop := v.OfType .number ∧ v.IsLiteral

instance (v : Value) : Decidable v.IsMeasure := inferInstanceAs (Decidable (_ ∧ _))

namespace IsMeasure

theorem exists_toFloat? (h : v.IsMeasure) (hmissing : v ≠ .missing) : ∃ x, v.toFloat? = some x :=
  isSome_toFloat? (h.1.resolve_left hmissing)

theorem typeName_eq (h : v.IsMeasure) (hmissing : v ≠ .missing) : v.typeName = "number" := by
  obtain ⟨x, hx⟩ := h.exists_toFloat? hmissing
  cases v <;> first | rfl | cases hx

theorem isFinite (h : v.IsMeasure) (hx : v.toFloat? = some x) : Binary64.isFinite x = true := by
  cases v with
  | int n =>
    cases hx
    exact Binary64.isFinite_ofInt n
  | float y =>
    cases hx
    exact h.2
  | missing | bool _ | text _ => cases hx

theorem not_isNaN (h : v.IsMeasure) (hx : v.toFloat? = some x) : Binary64.isNaN x = false :=
  Binary64.isNaN_of_isFinite (h.isFinite hx)

end IsMeasure

theorem ne_missing_of_toFloat? (h : v.toFloat? = some x) : v ≠ .missing := by
  rintro rfl
  cases h

theorem mem_present_of_toFloat? (hv : v ∈ values) (h : v.toFloat? = some x) : v ∈ present values :=
  mem_present.mpr ⟨hv, Bool.eq_false_iff.mpr fun hmissing =>
    ne_missing_of_toFloat? h (isMissing_iff.mp hmissing)⟩

/-- Values are in the order of their doubles, unless these are equal. -/
theorem order?_of_compare? {ord : Ordering} (ha : a.toFloat? = some x) (hb : b.toFloat? = some y)
    (h : Binary64.compare? x y = some ord) (hord : ord ≠ .eq) :
    a.order? context b = .ok (some ord) := by
  obtain ⟨r, s, hr, hs, rfl⟩ := Binary64.compare?_eq_some_iff.mp h
  have har : a.rank? = some r := by rw [rank?, ha, Option.bind_some, hr]
  have hbs : b.rank? = some s := by rw [rank?, hb, Option.bind_some, hs]
  cases hrs : compare r s with
  | lt => exact order?_lt_of_rank_lt har hbs (compare_lt_iff_lt.mp hrs)
  | eq => exact absurd hrs hord
  | gt => exact order?_swap (order?_lt_of_rank_lt hbs har (compare_gt_iff_gt.mp hrs))

/-- The double of a value leads to those of all values that do not beat it. -/
theorem leads_of_not_beats (hkeep : keep ≠ .eq) (ha : a.IsMeasure) (hb : b.IsMeasure)
    (hx : a.toFloat? = some x) (hy : b.toFloat? = some y) (h : ¬ b.Beats context keep a) :
    Binary64.Leads keep x y := by
  refine (Binary64.leads_or hkeep (ha.not_isNaN hx) (hb.not_isNaN hy)).resolve_right fun hyx => ?_
  exact h (order?_of_compare? hy hx hyx hkeep)

/-- The double is that of one of the values, and leads to those of all values. -/
structure IsEnd (keep : Ordering) (values : List Value) (x : Float) : Prop where
  mem : ∃ v ∈ values, v.toFloat? = some x
  leads : ∀ v ∈ values, ∀ y, v.toFloat? = some y → Binary64.Leads keep x y

namespace IsEnd

theorem not_isNaN (h : IsEnd keep values x) : Binary64.isNaN x = false := by
  obtain ⟨v, hv, hx⟩ := h.mem
  exact (h.leads v hv x hx).not_isNaN

theorem isFinite (h : IsEnd keep values x) (hvalues : ∀ v ∈ values, v.IsMeasure) :
    Binary64.isFinite x = true := by
  obtain ⟨v, hv, hx⟩ := h.mem
  exact (hvalues v hv).isFinite hx

theorem present_ne_nil (h : IsEnd keep values x) : present values ≠ [] := by
  obtain ⟨v, hv, hx⟩ := h.mem
  exact List.ne_nil_of_mem (mem_present_of_toFloat? hv hx)

/-- Two doubles at the same end are equal. -/
theorem compare?_eq (hkeep : keep ≠ .eq) (hx : IsEnd keep values x) (hy : IsEnd keep values y) :
    Binary64.compare? x y = some .eq := by
  obtain ⟨v, hv, hvx⟩ := hx.mem
  obtain ⟨w, hw, hwy⟩ := hy.mem
  exact Binary64.Leads.antisymm hkeep (hx.leads w hw y hwy) (hy.leads v hv x hvx)

theorem concat_missing (h : IsEnd keep values x) : IsEnd keep (values ++ [.missing]) x where
  mem := by
    obtain ⟨v, hv, hx⟩ := h.mem
    exact ⟨v, List.mem_append_left _ hv, hx⟩
  leads w hw y hy := by
    rcases List.mem_append.mp hw with hw | hw
    · exact h.leads w hw y hy
    · exact absurd (List.mem_singleton.mp hw) (ne_missing_of_toFloat? hy)

/-- The first number is at both ends. -/
theorem first (hempty : present values = []) (hv : v.toFloat? = some x)
    (hx : Binary64.isNaN x = false) : IsEnd keep (values ++ [v]) x where
  mem := ⟨v, by simp, hv⟩
  leads w hw y hy := by
    rcases List.mem_append.mp hw with hw | hw
    · have hpresent : w ∈ present values := mem_present_of_toFloat? hw hy
      rw [hempty] at hpresent
      cases hpresent
    · obtain rfl := List.mem_singleton.mp hw
      obtain rfl : x = y := Option.some.inj (hv.symm.trans hy)
      exact .inr (Binary64.compare?_self hx)

/-- With one more number, the better one of this number and the end so far is at the end. -/
theorem concat (hkeep : keep ≠ .eq) (h : IsEnd keep values x) (hv : v.toFloat? = some y)
    (hy : Binary64.isNaN y = false) :
    IsEnd keep (values ++ [v]) (Binary64.leader keep x y) := by
  obtain ⟨hleadx, hleady⟩ := Binary64.leads_leader hkeep h.not_isNaN hy
  refine ⟨?_, fun w hw z hz => ?_⟩
  · unfold Binary64.leader
    split
    · obtain ⟨w, hw, hx⟩ := h.mem
      exact ⟨w, List.mem_append_left _ hw, hx⟩
    · exact ⟨v, by simp, hv⟩
  · rcases List.mem_append.mp hw with hw | hw
    · exact hleadx.trans (h.leads w hw z hz)
    · obtain rfl := List.mem_singleton.mp hw
      obtain rfl : y = z := Option.some.inj (hv.symm.trans hz)
      exact hleady

end IsEnd

end Value

/-- The best of some values is at their end as a double. -/
theorem Best.exists_isEnd {context : String} {keep : Ordering} {values : List Value} {best : Value}
    (h : Best context keep (present values) best) (hkeep : keep ≠ .eq)
    (hvalues : ∀ v ∈ values, v.IsMeasure) :
    ∃ x, best.toFloat? = some x ∧ Value.IsEnd keep values x := by
  have hbest := hvalues best (mem_present.mp h.mem).1
  obtain ⟨x, hx⟩ := hbest.exists_toFloat? (ne_missing_of_mem_present h.mem)
  refine ⟨x, hx, ⟨best, (mem_present.mp h.mem).1, hx⟩, fun v hv y hy => ?_⟩
  have hunbeaten := h.unbeaten v (Value.mem_present_of_toFloat? hv hy)
  exact Value.leads_of_not_beats hkeep hbest (hvalues v hv) hx hy hunbeaten

/-- The least and the greatest of values that are measures are at their ends. -/
theorem AggregateFn.exists_isEnd {f : AggregateFn} {keep : Ordering} {values : List Value}
    (hf : f.keeps? = some keep) (hvalues : ∀ v ∈ values, v.IsMeasure) :
    ∃ r, f.apply values = .ok r ∧
      (present values = [] ∧ r = .missing ∨
        ∃ x, r.toFloat? = some x ∧ Value.IsEnd keep values x) := by
  have htype : ∀ v ∈ present values, v.typeName = "number" := fun v hv =>
    (hvalues v (mem_present.mp hv).1).typeName_eq (ne_missing_of_mem_present hv)
  obtain ⟨r, hr⟩ := extremeOf_isOk f.code keep fun a ha b hb => (htype a ha).trans (htype b hb).symm
  have hkeep := ne_eq_of_keeps? hf
  rw [apply_eq_extremeOf hf]
  exact ⟨r, hr, (extremeOf_cases hkeep hr).imp_right fun hbest => hbest.exists_isEnd hkeep hvalues⟩

/-! ### The extent of some values -/

namespace Extent

variable {values : List Value} {extent : Option Extent} {v : Value}

/-- The extent goes from one end of the values to the other one. There is none without numbers. -/
inductive Spans (values : List Value) : Option Extent → Prop
  | empty (none_present : present values = []) : Spans values none
  | between {e : Extent} (low : Value.IsEnd .lt values e.low)
      (high : Value.IsEnd .gt values e.high) : Spans values (some e)

theorem addValue_of_toFloat? {x : Float} (extent : Option Extent) (hv : v.toFloat? = some x) :
    addValue extent v = .ok (if Binary64.isNaN x then extent else some (extend extent x)) := by
  cases v <;> first | (cases hv; rfl) | cases hv

theorem exists_addValue (extent : Option Extent) (h : v.OfType .number) :
    ∃ next, addValue extent v = .ok next := by
  rcases h with rfl | htype
  · exact ⟨extent, rfl⟩
  · obtain ⟨x, hx⟩ := Value.isSome_toFloat? htype
    exact ⟨_, addValue_of_toFloat? extent hx⟩

theorem addValue_mismatch (extent : Option Extent) (h : ¬ v.OfType .number) :
    addValue extent v = .error (.typeMismatch "histogram" "number" v.typeName) := by
  cases v with
  | missing => exact absurd (.inl rfl) h
  | int n | float x => exact absurd (.inr rfl) h
  | bool b | text s => rfl

/-- A step of the fold. -/
theorem Spans.addValue (h : Spans values extent) (hv : v.IsMeasure) :
    ∃ next, Extent.addValue extent v = .ok next ∧ Spans (values ++ [v]) next := by
  by_cases hmissing : v = .missing
  · subst hmissing
    refine ⟨extent, rfl, ?_⟩
    cases h with
    | empty hempty =>
      refine .empty ?_
      rw [present, List.filter_append, ← present, hempty]
      rfl
    | between hlow hhigh => exact .between hlow.concat_missing hhigh.concat_missing
  · obtain ⟨x, hx⟩ := hv.exists_toFloat? hmissing
    have hnan := hv.not_isNaN hx
    refine ⟨some (extend extent x), ?_, ?_⟩
    · rw [addValue_of_toFloat? extent hx, hnan]
      rfl
    · cases h with
      | empty hempty => exact .between (.first hempty hx hnan) (.first hempty hx hnan)
      | between hlow hhigh =>
        exact .between (hlow.concat (by decide) hx hnan) (hhigh.concat (by decide) hx hnan)

/-- The fold comes to the extent of the values. -/
theorem exists_spans (h : ∀ v ∈ values, v.IsMeasure) :
    ∃ extent, ofValues values = .ok extent ∧ Spans values extent := by
  induction values using List.reverseRecOn with
  | nil => exact ⟨none, rfl, .empty rfl⟩
  | append_singleton before v ih =>
    obtain ⟨extent, hextent, hspans⟩ := ih fun w hw => h w (List.mem_append_left _ hw)
    obtain ⟨next, hnext, hspans'⟩ := hspans.addValue (h v (by simp))
    refine ⟨next, ?_, hspans'⟩
    unfold ofValues at *
    rw [List.foldlM_append, hextent, ok_bind, List.foldlM_cons, hnext]
    rfl

/-- The fold stops at the first value that is neither missing nor a number. -/
theorem exists_mismatch (h : ∃ v ∈ values, ¬ v.OfType .number) (extent : Option Extent) :
    ∃ before v after, values = before ++ v :: after ∧ (∀ w ∈ before, w.OfType .number) ∧
      ¬ v.OfType .number ∧
      values.foldlM addValue extent = .error (.typeMismatch "histogram" "number" v.typeName) := by
  induction values generalizing extent with
  | nil => simp at h
  | cons first rest ih =>
    by_cases hfirst : first.OfType .number
    · obtain ⟨next, hnext⟩ := exists_addValue extent hfirst
      have hrest : ∃ v ∈ rest, ¬ v.OfType .number := by simpa [hfirst] using h
      obtain ⟨before, v, after, rfl, hbefore, hv, heq⟩ := ih hrest next
      refine ⟨first :: before, v, after, rfl, List.forall_mem_cons.mpr ⟨hfirst, hbefore⟩, hv, ?_⟩
      rw [List.foldlM_cons, hnext, ok_bind, heq]
    · refine ⟨[], first, rest, rfl, List.forall_mem_nil _, hfirst, ?_⟩
      rw [List.foldlM_cons, addValue_mismatch extent hfirst]
      rfl

/-- The width of one of several bins of equal width, zero without an extent. -/
def stepOf (bins : Nat) : Option Extent → Float
  | some e => e.step bins
  | none => 0.0

end Extent

/-! ### Histograms -/

/-- The extent that a plot hands on if it is a histogram, and the step. -/
def PlotSpec.bins? (spec : PlotSpec) : Option (Json × Json) := do
  let x ← (← spec.toJson.member? "encoding").member? "x"
  let bin ← x.member? "bin"
  return (← bin.member? "extent", ← bin.member? "step")

theorem Json.ofFloat_finite (x : Binary64.Finite) : Json.ofFloat x = .number (.float x) := by
  rw [Json.ofFloat, Value.ofFloat?_finite]

theorem Json.member?_record (name : String) (members : List (String × Json)) :
    (Json.record members).member? name = members.reverse.lookup name :=
  lookup_sortByName ..

theorem PlotSpec.bins?_histogram (rows : List Row) (column : String) (bins : Nat)
    (extent : Option Extent) (step : Float) :
    bins? ⟨rows, .histogram column bins extent step⟩
      = some (extentJson extent, .ofFloat step) := by
  simp [bins?, toJson, channels, Json.member?_record, List.lookup]

namespace Plot

variable {t : Table} {columns : NameSet} {column : String} {bins : Nat} {values : List Value}

/-- The extent and the step of a histogram in terms of the least and the greatest value of its
column. -/
structure Agrees (values : List Value) (bins : Nat) (low high : Value) (extent step : Json) :
    Prop where
  empty_iff : extent = .null ∧ step = .ofFloat 0.0 ↔ low = .missing
  ends : low ≠ .missing → ∃ (a b : Binary64.Finite) (x y : Float),
    extent = .array [.number (.float a), .number (.float b)] ∧
    step = .ofFloat ((b.toFloat - a.toFloat) / Binary64.ofInt bins) ∧
    low.toFloat? = some x ∧ Binary64.compare? a x = some .eq ∧
    high.toFloat? = some y ∧ Binary64.compare? b y = some .eq ∧
    ∀ v ∈ values, v ≠ .missing → ∃ z, v.toFloat? = some z ∧
      Binary64.Leads .lt x z ∧ Binary64.Leads .lt z y

theorem agrees_of_spans {low high : Value} {extent : Option Extent}
    (hvalues : ∀ v ∈ values, v.IsMeasure) (hspans : Extent.Spans values extent)
    (hlow : present values = [] ∧ low = .missing ∨
      ∃ x, low.toFloat? = some x ∧ Value.IsEnd .lt values x)
    (hhigh : present values = [] ∧ high = .missing ∨
      ∃ y, high.toFloat? = some y ∧ Value.IsEnd .gt values y) :
    Agrees values bins low high (PlotSpec.extentJson extent)
      (.ofFloat (Extent.stepOf bins extent)) := by
  cases hspans with
  | empty hnone =>
    have hmissing : low = .missing := by
      rcases hlow with ⟨-, hlow⟩ | ⟨x, -, hx⟩
      · exact hlow
      · exact absurd hnone hx.present_ne_nil
    exact ⟨iff_of_true ⟨rfl, rfl⟩ hmissing, fun h => absurd hmissing h⟩
  | @between e he_low he_high =>
    obtain ⟨x, hx, hxend⟩ := hlow.resolve_left fun h => he_low.present_ne_nil h.1
    obtain ⟨y, hy, hyend⟩ := hhigh.resolve_left fun h => he_high.present_ne_nil h.1
    have hextent : PlotSpec.extentJson (some e)
        = .array [.number (.float ⟨e.low, he_low.isFinite hvalues⟩),
          .number (.float ⟨e.high, he_high.isFinite hvalues⟩)] := by
      rw [PlotSpec.extentJson, Json.ofFloat_finite ⟨e.low, _⟩, Json.ofFloat_finite ⟨e.high, _⟩]
    rw [hextent]
    refine ⟨iff_of_false (fun h => nomatch h.1) (Value.ne_missing_of_toFloat? hx), fun _ =>
      ⟨_, _, x, y, rfl, rfl, hx, he_low.compare?_eq (by decide) hxend, hy,
        he_high.compare?_eq (by decide) hyend, fun v hv hmissing => ?_⟩⟩
    obtain ⟨z, hz⟩ := (hvalues v hv).exists_toFloat? hmissing
    exact ⟨z, hz, hxend.leads v hv z hz, (hyend.leads v hv z hz).swap⟩

theorem spec_histogram (ht : ∀ row ∈ t.rows, row.contains column = true) (hbins : 1 ≤ bins)
    (hcells : t.cells column = .ok values) :
    Plot.spec t (.histogram column bins) = (do
      let extent ← Extent.ofValues values
      return { rows := t.rows, encoding := .histogram column bins extent (Extent.stepOf bins extent) })
    := by
  change histogramSpec t column bins = _
  rw [histogramSpec, if_neg (by omega), Table.requireColumn_eq ht, hcells]
  refine congrArg (Extent.ofValues values >>= ·) (funext fun extent => ?_)
  cases extent <;> rfl

/-- A histogram of a column of numbers hands on the extent from the least to the greatest value of
the column, and none if there are none. The fold of the extent and those of the aggregates may take
different values for the ends, which are equal as doubles. With a value that is neither missing nor
a number there is no histogram, and the first such value is the reason. -/
theorem histogram_extent (ht : t.HasColumns columns) (hcolumn : columns.contains column = true)
    (hbins : 1 ≤ bins) :
    ∃ values, t.cells column = .ok values ∧
      ((∀ v ∈ values, v.IsMeasure) →
        ∃ spec extent step low high, Plot.spec t (.histogram column bins) = .ok spec ∧
          spec.bins? = some (extent, step) ∧ AggregateFn.min.apply values = .ok low ∧
          AggregateFn.max.apply values = .ok high ∧ Agrees values bins low high extent step) ∧
      ((∃ v ∈ values, ¬ v.OfType .number) →
        ∃ before v after, values = before ++ v :: after ∧ (∀ w ∈ before, w.OfType .number) ∧
          ¬ v.OfType .number ∧ Plot.spec t (.histogram column bins)
            = .error (.typeMismatch "histogram" "number" v.typeName)) := by
  have hrows := ht.contains hcolumn
  have hcells : t.cells column = .ok (t.rows.map (Row.keyIn column)) := cellsOf_eq hrows
  have hspec := spec_histogram hrows hbins hcells
  generalize t.rows.map (Row.keyIn column) = values at hcells hspec
  refine ⟨values, hcells, fun hvalues => ?_, fun hmismatch => ?_⟩
  · obtain ⟨extent, hextent, hspans⟩ := Extent.exists_spans hvalues
    obtain ⟨low, hmin, hlow⟩ := AggregateFn.exists_isEnd (f := .min) rfl hvalues
    obtain ⟨high, hmax, hhigh⟩ := AggregateFn.exists_isEnd (f := .max) rfl hvalues
    rw [hextent, ok_bind] at hspec
    exact ⟨_, _, _, low, high, hspec, PlotSpec.bins?_histogram .., hmin, hmax,
      agrees_of_spans hvalues hspans hlow hhigh⟩
  · obtain ⟨before, v, after, hsplit, hbefore, hv, hfold⟩ := Extent.exists_mismatch hmismatch none
    refine ⟨before, v, after, hsplit, hbefore, hv, ?_⟩
    rw [hspec, Extent.ofValues, hfold]
    rfl

/-- Lengths, two of which are one double but not one integer. -/
def lengths : Table where
  rows :=
    [.ofList [("name", .text "a"), ("length", .int 9007199254740993)],
      .ofList [("name", .text "b"), ("length", .missing)],
      .ofList [("name", .missing), ("length", .float 9007199254740992)],
      .ofList [("name", .text "d"), ("length", .float 0.5)],
      .ofList [("name", .text "e"), ("length", .int 1)]]

/-- The double at the upper end is that of the third row, and the greatest value that of the
first one. -/
theorem lengths_histogram :
    lengths.HasColumns (.ofNames ["length", "name"]) ∧
    (NameSet.ofNames ["length", "name"]).contains "length" = true ∧ 1 ≤ 5 ∧
    (∃ values, lengths.cells "length" = .ok values ∧ (∀ v ∈ values, v.IsMeasure) ∧
      ∃ spec extent step, Plot.spec lengths (.histogram "length" 5) = .ok spec ∧
        spec.bins? = some (extent, step) ∧
        Agrees values 5 (.float 0.5) (.int 9007199254740993) extent step) ∧
    ∃ before v after, lengths.cells "name" = .ok (before ++ v :: after) ∧ ¬ v.OfType .number ∧
      Plot.spec lengths (.histogram "name" 5)
        = .error (.typeMismatch "histogram" "number" v.typeName) := by
  have ht : lengths.HasColumns (.ofNames ["length", "name"]) := by
    unfold Table.HasColumns
    decide
  have hlength : (NameSet.ofNames ["length", "name"]).contains "length" = true := by decide
  have hname : (NameSet.ofNames ["length", "name"]).contains "name" = true := by decide
  refine ⟨ht, hlength, by decide, ?_, ?_⟩
  · obtain ⟨values, hcells, hnumbers, -⟩ := histogram_extent ht hlength (show 1 ≤ 5 by decide)
    cases hcells
    have hvalues : ∀ v ∈ [Value.int 9007199254740993, .missing, .float 9007199254740992, .float 0.5,
        .int 1], v.IsMeasure := by decide
    obtain ⟨spec, extent, step, low, high, hspec, hstep, hlow, hhigh, hagrees⟩ := hnumbers hvalues
    cases hlow
    cases hhigh
    exact ⟨_, rfl, hvalues, spec, extent, step, hspec, hstep, hagrees⟩
  · obtain ⟨values, hcells, -, hmismatch⟩ := histogram_extent ht hname (show 1 ≤ 5 by decide)
    cases hcells
    obtain ⟨before, v, after, hsplit, -, hv, hspec⟩ :=
      hmismatch ⟨.text "a", List.mem_cons_self, by decide⟩
    exact ⟨before, v, after, hsplit ▸ rfl, hv, hspec⟩

end Plot

end TablePipeline
