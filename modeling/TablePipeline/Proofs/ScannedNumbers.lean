import TablePipeline.Proofs.Kept
/-!
# The numbers of a text

Every number in the tree of a text comes from a numeral (`Raw.fromNumeral_of_parse?`), so that only
negative integers are held with a sign. Whole numbers therefore read back.
-/

namespace TablePipeline.Json

namespace Raw

/-- The tree is no number, or one that a numeral stands for. -/
def FromNumeral : Raw → Prop
  | .number n => ∃ t : Numeral, n = t.toNumber?
  | .null | .bool _ | .string _ | .array _ | .object _ => True

/-- All numbers that are scanned come from numerals, whatever is left of the text. -/
theorem fromNumeral_of_scan (fuel : Nat) :
    (∀ cs r rest, scanValue? fuel cs = some (r, rest) → r.Everywhere FromNumeral) ∧
    (∀ cs items rest, scanItems? fuel cs = some (items, rest) →
      ∀ item ∈ items, item.Everywhere FromNumeral) ∧
    (∀ cs members rest, scanMembers? fuel cs = some (members, rest) →
      ∀ m ∈ members, m.2.Everywhere FromNumeral) := by
  induction fuel with
  | zero =>
    refine ⟨fun cs r rest h => ?_, fun cs items rest h => ?_, fun cs members rest h => ?_⟩
    · cases h
    · cases h
    · cases h
  | succ fuel ih =>
    obtain ⟨hvalue, hitems, hmembers⟩ := ih
    refine ⟨fun cs r rest h => ?_, fun cs items rest h => ?_, fun cs members rest h => ?_⟩
    · rw [scanValue?] at h
      split at h
      · cases h
      · split at h
        · cases h
          exact everywhere_of_leaf trivial rfl
        · obtain ⟨⟨items, after⟩, hscan, h⟩ := Option.bind_eq_some_iff.mp h
          cases h
          exact everywhere_iff.mpr ⟨trivial, hitems _ _ _ hscan⟩
      · split at h
        · cases h
          exact everywhere_of_leaf trivial rfl
        · obtain ⟨⟨members, after⟩, hscan, h⟩ := Option.bind_eq_some_iff.mp h
          cases h
          exact everywhere_iff.mpr ⟨trivial, List.forall_mem_map.mpr (hmembers _ _ _ hscan)⟩
      · obtain ⟨⟨s, after⟩, -, h⟩ := Option.bind_eq_some_iff.mp h
        cases h
        exact everywhere_of_leaf trivial rfl
      · obtain ⟨after, -, h⟩ := Option.bind_eq_some_iff.mp h
        cases h
        exact everywhere_of_leaf trivial rfl
      · obtain ⟨after, -, h⟩ := Option.bind_eq_some_iff.mp h
        cases h
        exact everywhere_of_leaf trivial rfl
      · obtain ⟨after, -, h⟩ := Option.bind_eq_some_iff.mp h
        cases h
        exact everywhere_of_leaf trivial rfl
      · obtain ⟨⟨t, after⟩, -, h⟩ := Option.bind_eq_some_iff.mp h
        cases h
        exact everywhere_of_leaf ⟨t, rfl⟩ rfl
    · rw [scanItems?] at h
      obtain ⟨⟨item, after⟩, hfirst, h⟩ := Option.bind_eq_some_iff.mp h
      have hitem := hvalue _ _ _ hfirst
      dsimp only at h
      split at h
      · cases h
        exact List.forall_mem_singleton.mpr hitem
      · obtain ⟨⟨more, after'⟩, hmore, h⟩ := Option.bind_eq_some_iff.mp h
        cases h
        exact List.forall_mem_cons.mpr ⟨hitem, hitems _ _ _ hmore⟩
      · cases h
    · rw [scanMembers?] at h
      split at h
      · obtain ⟨⟨key, after⟩, -, h⟩ := Option.bind_eq_some_iff.mp h
        dsimp only at h
        split at h
        · obtain ⟨⟨value, after'⟩, hfirst, h⟩ := Option.bind_eq_some_iff.mp h
          have hfound := hvalue _ _ _ hfirst
          dsimp only at h
          split at h
          · cases h
            exact List.forall_mem_singleton.mpr hfound
          · obtain ⟨⟨more, after''⟩, hmore, h⟩ := Option.bind_eq_some_iff.mp h
            cases h
            exact List.forall_mem_cons.mpr ⟨hfound, hmembers _ _ _ hmore⟩
          · cases h
        · cases h
      · cases h

theorem fromNumeral_of_parse? {text : String} {r : Raw} (h : parse? text = some r) :
    r.Everywhere FromNumeral := by
  unfold parse? at h
  split at h
  · next value rest hscan =>
    split at h
    · cases h
      exact (fromNumeral_of_scan _).1 _ _ _ hscan
    · cases h
  · cases h

end Raw

/-! ### Whole numbers -/

theorem ofFloat?_ne_signed {x : Float} {n : Int64} : Number.ofFloat? x ≠ some (.signed n) := by
  intro h
  obtain ⟨y, -, hy⟩ := Option.map_eq_some_iff.mp h
  cases hy

theorem scaled?_ne_signed {negative : Bool} {k : Nat} {e : Int} {n : Int64} :
    Numeral.scaled? negative k e ≠ some (.signed n) := by
  intro h
  obtain ⟨x, -, hx⟩ := Option.bind_eq_some_iff.mp h
  exact ofFloat?_ne_signed hx

theorem toInt_neg_of_integer {negative : Bool} {k : Nat} {n : Int64}
    (h : Numeral.integer negative k = some (.signed n)) : n.toInt < 0 := by
  unfold Numeral.integer at h
  split at h
  · split at h
    · next hk =>
      cases h
      rw [Int64.toInt_ofInt_of_le (by omega) (by omega)]
      omega
    · exact (ofFloat?_ne_signed h).elim
  · cases h

/-- A numeral never stands for a signed integer that is not negative. -/
theorem toInt_neg_of_toNumber? {t : Numeral} {n : Int64} (h : t.toNumber? = some (.signed n)) :
    n.toInt < 0 := by
  unfold Numeral.toNumber? at h
  dsimp only at h
  split at h
  · split at h
    · exact toInt_neg_of_integer h
    · exact (scaled?_ne_signed h).elim
  · split at h
    · exact (scaled?_ne_signed h).elim
    · split at h
      · cases h
      · exact (ofFloat?_ne_signed h).elim

/-- The number is held as an integer, or it is the zero with a sign, which is held as a double. -/
def Number.IsWhole : Number → Prop
  | .unsigned _ | .signed _ => True
  | .float x => x.toFloat = -0.0

instance : DecidablePred Number.IsWhole
  | .unsigned _ | .signed _ => inferInstanceAs (Decidable True)
  | .float x => inferInstanceAs (Decidable (x.toFloat = -0.0))

/-- The numeral has neither a point nor an exponent and fits in 64 bits. -/
structure Numeral.Fits (t : Numeral) : Prop where
  places : t.places = []
  exponent : t.exponent = none
  bound : Binary64.natOfDigits 0 t.whole
    ≤ if t.negative then 0x8000000000000000 else 0xffffffffffffffff

/-- These numerals stand for whole numbers. -/
theorem Numeral.Fits.isWhole {t : Numeral} (h : t.Fits) :
    ∃ n, t.toNumber? = some n ∧ n.IsWhole := by
  obtain ⟨negative, whole, places, exponent⟩ := t
  obtain ⟨rfl, rfl, hbound⟩ := h
  dsimp only at hbound
  have hlt : Binary64.natOfDigits 0 whole < 0x10000000000000000 := by
    split at hbound <;> omega
  have hnumber : Numeral.toNumber? ⟨negative, whole, [], none⟩
      = Numeral.integer negative (Binary64.natOfDigits 0 whole) := by
    unfold Numeral.toNumber?
    rw [absorb_of_lt hlt]
    rfl
  rw [hnumber, Numeral.integer]
  split
  · split
    · exact ⟨_, rfl, trivial⟩
    · next hnegative hzero =>
      have hnone : Binary64.natOfDigits 0 whole = 0 := by
        rw [if_pos hnegative] at hbound
        omega
      rw [hnone]
      exact ⟨.float ⟨-0.0, by decide +kernel⟩, by decide +kernel, rfl⟩
  · exact ⟨_, rfl, trivial⟩

/-- The tree is no number, or a whole one. -/
def Raw.WholeNumber : Raw → Prop
  | .number (some n) => n.IsWhole
  | .number none | .null | .bool _ | .string _ | .array _ | .object _ => True

instance : DecidablePred Raw.WholeNumber
  | .number (some n) => inferInstanceAs (Decidable n.IsWhole)
  | .number none | .null | .bool _ | .string _ | .array _ | .object _ =>
    inferInstanceAs (Decidable True)

theorem readsBack_negativeZero (h : Binary64.isFinite (-0.0) = true) :
    (Number.float ⟨-0.0, h⟩).ReadsBack := by
  have hzero : (Number.float ⟨-0.0, by decide +kernel⟩).ReadsBack := by decide +kernel
  exact hzero

/-- The whole numbers of a text read back. -/
theorem Raw.numberReadsBack_of_parse? {text : String} {r : Raw} (h : parse? text = some r)
    (hwhole : r.Everywhere WholeNumber) : r.Everywhere NumberReadsBack := by
  intro s hs
  have hnumeral := fromNumeral_of_parse? h s hs
  have hwhole := hwhole s hs
  cases s with
  | null | bool b | string s | array items | object members => trivial
  | number n =>
    cases n with
    | none => trivial
    | some n =>
      obtain ⟨t, ht⟩ := hnumeral
      cases n with
      | unsigned n => exact readsBack_unsigned n
      | signed n => exact readsBack_signed (toInt_neg_of_toNumber? ht.symm)
      | float x =>
        obtain ⟨x, hfinite⟩ := x
        obtain rfl : x = -0.0 := hwhole
        exact readsBack_negativeZero hfinite

end TablePipeline.Json
