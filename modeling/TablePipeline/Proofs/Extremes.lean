import TablePipeline.Proofs.StrictOrder
import TablePipeline.Proofs.Sums
/-!
# Extremes

A column has a least and a greatest value unless two of its values differ in type. What comes out is
a value that no other one beats. Where integers and doubles are mixed there may be several of these,
all equal to one another but not to the same values, and the order of the rows decides between them
(`AggregateFn.extreme_of_values`).
-/

namespace TablePipeline

open Outcome

/-- The values are of one type. -/
def SameType (values : List Value) : Prop := ∀ a ∈ values, ∀ b ∈ values, a.typeName = b.typeName

theorem SameType.exists_exact {values : List Value} (h : SameType values)
    (hpresent : ∀ v ∈ values, v ≠ .missing) (hfloat : ∀ v ∈ values, v.isFloat = false) :
    ∃ type, ∀ v ∈ values, v.Exact type := by
  cases values with
  | nil => exact ⟨.number, nofun⟩
  | cons first rest =>
    have hfirst : first ∈ first :: rest := List.mem_cons_self
    obtain ⟨type, htype⟩ := Value.exists_exact (hpresent first hfirst) (hfloat first hfirst)
    exact ⟨type, fun v hv => htype.of_typeName (h first hfirst v hv) (hfloat v hv)⟩

/-! ### The fold -/

namespace AggregateFn

variable {context : String} {keep : Ordering} {best r v : Value} {values rest : List Value}

theorem better_cases (h : better context keep best v = .ok r) :
    r = v ∧ v.Beats context keep best ∨ r = best ∧ ¬ v.Beats context keep best := by
  obtain ⟨ord, hord, h⟩ := bind_eq_ok.mp h
  unfold Value.Beats
  rw [hord]
  split at h
  · next heq => exact .inl ⟨(pure_eq_ok.mp h).symm, by rw [heq]⟩
  · next hne => exact .inr ⟨(pure_eq_ok.mp h).symm, fun heq => hne (Except.ok.inj heq)⟩

/-- A step of the fold. -/
theorem best_of_better (hbest : Best context keep values best) (hkeep : keep ≠ .eq)
    (h : better context keep best v = .ok r) : Best context keep (values ++ [v]) r := by
  rcases better_cases h with ⟨rfl, hbeats⟩ | ⟨rfl, hbeats⟩
  · refine ⟨by simp, fun w hw hwr => ?_⟩
    rcases List.mem_append.mp hw with hw | hw
    · exact hbest.unbeaten w hw (Value.beats_trans hkeep hwr hbeats)
    · exact Value.not_beats_self hkeep (List.mem_singleton.mp hw ▸ hwr)
  · refine ⟨List.mem_append_left _ hbest.mem, fun w hw hwr => ?_⟩
    rcases List.mem_append.mp hw with hw | hw
    · exact hbest.unbeaten w hw hwr
    · exact hbeats (List.mem_singleton.mp hw ▸ hwr)

/-- The fold keeps the best of the values so far. -/
theorem best_of_foldlM (hkeep : keep ≠ .eq) (h : rest.foldlM (better context keep) best = .ok r) :
    Best context keep (best :: rest) r := by
  induction rest using List.reverseRecOn generalizing r with
  | nil =>
    obtain rfl := pure_eq_ok.mp h
    exact .singleton hkeep
  | append_singleton rest v ih =>
    rw [List.foldlM_append] at h
    obtain ⟨before, hbefore, h⟩ := bind_eq_ok.mp h
    exact best_of_better (ih hbefore) hkeep (by simpa using h)

/-- A step of the fold keeps to the type. -/
theorem exists_better (context : String) (keep : Ordering) (h : v.typeName = best.typeName) :
    ∃ next, better context keep best v = .ok next ∧ next.typeName = best.typeName := by
  obtain ⟨ord, hord⟩ := Value.exists_order?_of_not_clash context fun hclash => hclash.2.2 h
  rw [better, hord, ok_bind]
  split
  · exact ⟨v, rfl, h⟩
  · exact ⟨best, rfl, rfl⟩

theorem better_of_clash (context : String) (keep : Ordering) (h : v.Clash best) :
    better context keep best v = .error (.typeMismatch context v.typeName best.typeName) := by
  rw [better, Value.order?_of_clash context h]
  rfl

/-- The fold stops at a value of another type than the first one. -/
theorem exists_mismatch (context : String) (keep : Ordering)
    (hpresent : ∀ v ∈ best :: rest, v ≠ .missing) (h : ∃ v ∈ rest, v.typeName ≠ best.typeName) :
    ∃ v ∈ rest, v.typeName ≠ best.typeName ∧ rest.foldlM (better context keep) best
      = .error (.typeMismatch context v.typeName best.typeName) := by
  induction rest generalizing best with
  | nil => simp at h
  | cons v rest ih =>
    simp only [List.forall_mem_cons] at hpresent
    obtain ⟨hbest, hv, hrest⟩ := hpresent
    by_cases htype : v.typeName = best.typeName
    · obtain ⟨next, hnext, hnexttype⟩ := exists_better context keep htype
      have hnextpresent : next ≠ .missing := by
        rcases better_cases hnext with ⟨rfl, -⟩ | ⟨rfl, -⟩
        · exact hv
        · exact hbest
      have hrestclash : ∃ w ∈ rest, w.typeName ≠ next.typeName := by
        simpa [htype, hnexttype] using h
      obtain ⟨w, hw, hwtype, heq⟩ := ih (List.forall_mem_cons.mpr ⟨hnextpresent, hrest⟩) hrestclash
      rw [hnexttype] at hwtype heq
      refine ⟨w, List.mem_cons_of_mem _ hw, hwtype, ?_⟩
      rw [List.foldlM_cons, hnext, ok_bind, heq]
    · refine ⟨v, List.mem_cons_self, htype, ?_⟩
      rw [List.foldlM_cons, better_of_clash context keep ⟨hv, hbest, htype⟩]
      rfl

/-- Values of one type have an extreme. -/
theorem extremeOf_isOk (context : String) (keep : Ordering) (h : SameType values) :
    ∃ r, extremeOf context keep values = .ok r := by
  cases values with
  | nil => exact ⟨_, rfl⟩
  | cons first rest =>
    have hstep : ∀ best : Value, best.typeName = first.typeName → ∀ v ∈ rest,
        ∃ next, better context keep best v = .ok next ∧ next.typeName = first.typeName := by
      intro best hbest v hv
      have hfirst := h v (List.mem_cons_of_mem _ hv) first List.mem_cons_self
      obtain ⟨next, hnext, htype⟩ := exists_better context keep (hfirst.trans hbest.symm)
      exact ⟨next, hnext, htype.trans hbest⟩
    obtain ⟨r, hr, -⟩ := exists_foldlM_eq_ok hstep rfl
    exact ⟨r, hr⟩

/-- Values of different types have none. -/
theorem exists_extremeOf_mismatch (context : String) (keep : Ordering)
    (hpresent : ∀ v ∈ values, v ≠ .missing) (h : ¬ SameType values) :
    ∃ a ∈ values, ∃ b ∈ values, a.typeName ≠ b.typeName ∧
      extremeOf context keep values = .error (.typeMismatch context a.typeName b.typeName) := by
  cases values with
  | nil => exact absurd nofun h
  | cons first rest =>
    have hclash : ∃ v ∈ rest, v.typeName ≠ first.typeName := by
      by_contra hnone
      push Not at hnone
      have hfirst : ∀ v ∈ first :: rest, v.typeName = first.typeName :=
        List.forall_mem_cons.mpr ⟨rfl, hnone⟩
      exact h fun a ha b hb => (hfirst a ha).trans (hfirst b hb).symm
    obtain ⟨v, hv, htype, heq⟩ := exists_mismatch context keep hpresent hclash
    exact ⟨v, List.mem_cons_of_mem _ hv, first, List.mem_cons_self, htype, heq⟩

/-- The extreme is the best of the values, or there are none. -/
theorem extremeOf_cases (hkeep : keep ≠ .eq) (h : extremeOf context keep values = .ok r) :
    values = [] ∧ r = .missing ∨ Best context keep values r := by
  cases values with
  | nil =>
    cases h
    exact .inl ⟨rfl, rfl⟩
  | cons first rest => exact .inr (best_of_foldlM hkeep h)

end AggregateFn

/-! ### The extreme of a column -/

/-- The value is missing if all are, and one that no other one beats if not. Without doubles it is
the first one of these. -/
structure Extreme (context : String) (keep : Ordering) (values : List Value) (r : Value) :
    Prop where
  missing_iff : r = .missing ↔ present values = []
  best : r ≠ .missing → Best context keep (present values) r
  first : r ≠ .missing → (∀ v ∈ values, v.isFloat = false) →
    ∃ before after, values = before ++ r :: after ∧
      ∀ v ∈ before, ¬ Best context keep (present values) v

namespace Best

variable {context : String} {keep : Ordering} {values order : List Value} {a b : Value}

theorem perm (h : Best context keep values a) (hperm : order.Perm values) :
    Best context keep order a where
  mem := hperm.mem_iff.mpr h.mem
  unbeaten v hv := h.unbeaten v (hperm.mem_iff.mp hv)

theorem sameKey (ha : Best context keep values a) (hb : Best context keep values b)
    (hordered : ∀ v ∈ values, v.IsOrdered) (htypes : SameType values) (hkeep : keep ≠ .eq) :
    a.sameKey b = true :=
  Value.sameKey_of_not_beats (hordered a ha.mem) (hordered b hb.mem) (htypes a ha.mem b hb.mem)
    hkeep (hb.unbeaten a ha.mem) (ha.unbeaten b hb.mem)

/-- If no value is a double, there is one best value. So nothing before it is as good. -/
theorem exists_first (h : Best context keep (present values) a) (hkeep : keep ≠ .eq)
    (htypes : SameType (present values)) (hfloat : ∀ v ∈ values, v.isFloat = false) :
    ∃ before after, values = before ++ a :: after ∧
      ∀ v ∈ before, ¬ Best context keep (present values) v := by
  obtain ⟨type, hexact⟩ := htypes.exists_exact (fun v hv => ne_missing_of_mem_present hv) fun v hv =>
    hfloat v (mem_present.mp hv).1
  obtain ⟨before, after, heq, hnew⟩ := List.eq_append_cons_of_mem (mem_present.mp h.mem).1
  refine ⟨before, after, heq, fun v hv hbest => hnew ?_⟩
  rw [h.unique hbest hexact hkeep]
  exact hv

end Best

namespace AggregateFn

variable {f : AggregateFn} {context : String} {keep : Ordering} {values order : List Value}
  {r s : Value}

/-- How a value compares to the best one so far if it takes its place. -/
def keeps? : AggregateFn → Option Ordering
  | .min => some .lt
  | .max => some .gt
  | _ => none

theorem ne_eq_of_keeps? (hf : f.keeps? = some keep) : keep ≠ .eq := by
  cases f <;> cases hf <;> decide

theorem apply_eq_extremeOf (hf : f.keeps? = some keep) (values : List Value) :
    f.apply values = extremeOf f.code keep (present values) := by
  cases f <;> cases hf <;> rfl

theorem extreme_of_extremeOf (hkeep : keep ≠ .eq) (htypes : SameType (present values))
    (h : extremeOf context keep (present values) = .ok r) : Extreme context keep values r := by
  rcases extremeOf_cases hkeep h with ⟨hempty, rfl⟩ | hbest
  · exact ⟨iff_of_true rfl hempty, fun hr => absurd rfl hr, fun hr => absurd rfl hr⟩
  · have hmissing : r ≠ .missing := ne_missing_of_mem_present hbest.mem
    have hpresent : present values ≠ [] := List.ne_nil_of_mem hbest.mem
    exact ⟨iff_of_false hmissing hpresent, fun _ => hbest,
      fun _ hfloat => hbest.exists_first hkeep htypes hfloat⟩

/-- The extremes of a column in two orders are the same key. -/
theorem sameKey_extremes (hnan : ∀ v ∈ values, v.isNaN = false) (hkeep : keep ≠ .eq)
    (htypes : SameType (present values)) (hperm : (present order).Perm (present values))
    (hr : extremeOf context keep (present values) = .ok r)
    (hs : extremeOf context keep (present order) = .ok s) : s.sameKey r = true := by
  rcases extremeOf_cases hkeep hr with ⟨hempty, rfl⟩ | hrbest
  · rw [hempty, List.perm_nil] at hperm
    rw [hperm] at hs
    cases hs
    rfl
  · have hsbest : Best context keep (present order) s := by
      refine (extremeOf_cases hkeep hs).resolve_left fun hnone => ?_
      rw [hnone.1, List.nil_perm] at hperm
      exact List.ne_nil_of_mem hrbest.mem hperm
    have hordered : ∀ v ∈ present values, v.IsOrdered := fun v hv =>
      ⟨ne_missing_of_mem_present hv, hnan v (mem_present.mp hv).1⟩
    exact (hsbest.perm hperm.symm).sameKey hrbest hordered htypes hkeep

/-- The least and the greatest of values without NaN fail if two values that are not missing differ
in type. Otherwise they are what they should be, and equal in all orders of the values. -/
theorem extreme_of_values (hf : f.keeps? = some keep) (hnan : ∀ v ∈ values, v.isNaN = false) :
    (¬ SameType (present values) →
      ∃ a ∈ present values, ∃ b ∈ present values, a.typeName ≠ b.typeName ∧
        f.apply values = .error (.typeMismatch f.code a.typeName b.typeName)) ∧
    (SameType (present values) →
      ∃ r, f.apply values = .ok r ∧ Extreme f.code keep values r ∧
        ∀ order, order.Perm values → ∃ s, f.apply order = .ok s ∧ s.sameKey r = true) := by
  simp only [apply_eq_extremeOf hf]
  have hkeep := ne_eq_of_keeps? hf
  constructor
  · exact exists_extremeOf_mismatch f.code keep fun v hv => ne_missing_of_mem_present hv
  · intro htypes
    obtain ⟨r, hr⟩ := extremeOf_isOk f.code keep htypes
    refine ⟨r, hr, extreme_of_extremeOf hkeep htypes hr, fun order horder => ?_⟩
    have hperm : (present order).Perm (present values) := horder.filter _
    have htypes' : SameType (present order) := fun a ha b hb =>
      htypes a (hperm.subset ha) b (hperm.subset hb)
    obtain ⟨s, hs⟩ := extremeOf_isOk f.code keep htypes'
    exact ⟨s, hs, sameKey_extremes hnan hkeep htypes hperm hr hs⟩

/-- Two integers that differ, and a double that is equal to both. -/
def blurred : List Value :=
  [.int 9007199254740993, .missing, .float 9007199254740992, .int 9007199254740992]

theorem extreme_of_blurred :
    AggregateFn.min.keeps? = some .lt ∧ AggregateFn.max.keeps? = some .gt ∧
    (∀ v ∈ blurred, v.isNaN = false) ∧ (∀ v ∈ .text "a" :: blurred, v.isNaN = false) ∧
    (∃ a ∈ present (.text "a" :: blurred), ∃ b ∈ present (.text "a" :: blurred),
      a.typeName ≠ b.typeName ∧ AggregateFn.max.apply (.text "a" :: blurred)
        = .error (.typeMismatch "max" a.typeName b.typeName)) ∧
    AggregateFn.min.apply blurred = .ok (.int 9007199254740992) ∧
    Extreme "min" .lt blurred (.int 9007199254740992) ∧
    ∀ order, order.Perm blurred →
      ∃ s, AggregateFn.min.apply order = .ok s ∧ s.sameKey (.int 9007199254740992) = true := by
  have hnan : ∀ v ∈ blurred, v.isNaN = false := by decide
  have hnan' : ∀ v ∈ .text "a" :: blurred, v.isNaN = false := by decide
  have htypes : SameType (present blurred) := by
    unfold SameType
    decide
  have htypes' : ¬ SameType (present (.text "a" :: blurred)) := by
    unfold SameType
    decide
  obtain ⟨-, hmin⟩ := extreme_of_values (f := .min) rfl hnan
  obtain ⟨hmax, -⟩ := extreme_of_values (f := .max) rfl hnan'
  obtain ⟨r, hr, hextreme, hperm⟩ := hmin htypes
  cases hr
  exact ⟨rfl, rfl, hnan, hnan', hmax htypes', rfl, hextreme, hperm⟩

end AggregateFn

end TablePipeline
