import TablePipeline.Proofs.ExactValue
import TablePipeline.Value
/-!
# Values and JSON

A JSON number is read as an integer if and only if it is one in the range of 64 bits, but for
`-2^63` held as a double (`Value.ofJson_number`). `Value.WrittenAs` says what a value is written as,
and `Value.Reloads` what becomes of it when that is read again. What is read stays as it is from then
on.
-/

namespace TablePipeline

open Binary64 (Finite)

namespace Json.Number

/-- The number itself. -/
def value : Number → ℚ
  | unsigned n => n.toNat
  | signed n => n.toInt
  | float x => x.value

/-- The double nearest to the number. -/
def nearest : Number → Float
  | unsigned n => Binary64.ofInt n.toNat
  | signed n => Binary64.ofInt n.toInt
  | float x => x

/-- The number is `-2^63`, held as a double. -/
def IsLeastDouble (n : Number) : Prop := ∃ x, n = float x ∧ x.value = -0x8000000000000000

end Json.Number

namespace Value

open Json.Number

/-! ### Reading numbers -/

/-- A finite double is read as the integer that it is equal to, if that is less than `2^63` without
its sign. -/
theorem ofNumber_float (x : Finite) :
    (∃ i : Int64, x.value = i.toInt ∧ |x.value| < 0x8000000000000000 ∧
      ofNumber (.float x) = .int i) ∨
    ((∀ n : Int, x.value = n → 0x8000000000000000 ≤ |x.value|) ∧
      ofNumber (.float x) = .float x) := by
  have habs (n : Int) (h : x.value = n) : |x.value| = n.natAbs := by
    rw [h, Nat.cast_natAbs, Int.cast_abs]
  unfold ofNumber
  simp only [toSigned?]
  cases hint : Binary64.toInt? x with
  | none =>
    refine .inr ⟨fun n hn => ?_, rfl⟩
    rw [x.toInt?_eq_some_iff.mpr hn] at hint
    cases hint
  | some n =>
    have hn : x.value = n := x.toInt?_eq_some_iff.mp hint
    dsimp only
    by_cases hsmall : n.natAbs < 0x8000000000000000
    · refine .inl ⟨Int64.ofInt n, ?_, ?_, if_pos hsmall⟩
      · rw [hn, Int64.toInt_ofInt_of_le (by omega) (by omega)]
      · rw [habs n hn]
        exact_mod_cast hsmall
    · refine .inr ⟨fun m hm => ?_, if_neg hsmall⟩
      rw [habs n hn]
      exact_mod_cast Nat.le_of_not_lt hsmall

/-- A number whose nearest double is a whole one from `2^63` on is read as that double. -/
theorem ofNumber_of_large {n : Json.Number} {k : Int} (hsigned : n.toSigned? = none)
    (hk : Binary64.toInt? n.nearest = some k) (hlarge : 0x8000000000000000 ≤ k.natAbs) :
    ofNumber n = .float n.nearest := by
  unfold ofNumber
  rw [hsigned]
  cases n with
  | unsigned n | float x =>
    dsimp only [nearest] at hk ⊢
    rw [hk]
    exact if_neg (by omega)
  | signed n => cases hsigned

/-- Naturals beyond the range of signed words are near whole doubles from `2^63` on. -/
theorem toInt?_nearest_of_le {n : UInt64} (h : 0x8000000000000000 ≤ n.toNat) :
    ∃ k : Int, Binary64.toInt? (nearest (.unsigned n)) = some k ∧
      0x8000000000000000 ≤ k.natAbs := by
  have hround := Binary64.le_roundHalfEven n.toNat 2048
  exact ⟨_, Binary64.toInt?_ofNat_of_le h (UInt64.toNat_lt n), by omega⟩

/-- A number is read as the integer that it is, or else as the double nearest to it. -/
theorem ofNumber_cases (n : Json.Number) :
    (∃ i : Int64, n.value = i.toInt ∧ ¬ n.IsLeastDouble ∧ ofNumber n = .int i) ∨
    ((∀ i : Int64, n.value = i.toInt → n.IsLeastDouble) ∧ ofNumber n = .float n.nearest) := by
  cases n with
  | unsigned n =>
    by_cases h : n.toNat < 0x8000000000000000
    · obtain ⟨i, hi, heq⟩ := toSigned?_unsigned_of_lt h
      refine .inl ⟨i, ?_, nofun, ?_⟩
      · rw [value, heq]
        rfl
      · unfold ofNumber
        rw [hi]
    · obtain ⟨k, hk, hlarge⟩ := toInt?_nearest_of_le (Nat.le_of_not_lt h)
      refine .inr ⟨fun i hi => ?_,
        ofNumber_of_large (toSigned?_unsigned_of_le (Nat.le_of_not_lt h)) hk hlarge⟩
      have hlt := Int64.toInt_lt i
      have heq : (n.toNat : Int) = i.toInt := by
        rw [value] at hi
        exact_mod_cast hi
      omega
  | signed n => exact .inl ⟨n, rfl, nofun, rfl⟩
  | float x =>
    have hleast : IsLeastDouble (.float x) ↔ x.value = -0x8000000000000000 := by
      simp [IsLeastDouble]
    rw [hleast]
    rcases ofNumber_float x with ⟨i, hi, hsmall, hread⟩ | ⟨hlarge, hread⟩
    · refine .inl ⟨i, hi, fun h => ?_, hread⟩
      rw [h, abs_neg] at hsmall
      exact absurd hsmall (by norm_num)
    · refine .inr ⟨fun i hi => ?_, hread⟩
      have hle := Int64.le_toInt i
      have hlt := Int64.toInt_lt i
      have habs : (0x8000000000000000 : ℚ) ≤ |(i.toInt : ℚ)| := by
        have h := hlarge i.toInt hi
        rwa [show x.value = i.toInt from hi] at h
      have hnat : (0x8000000000000000 : Int) ≤ i.toInt.natAbs := by
        rw [Int.natCast_natAbs]
        exact_mod_cast habs
      have hmin : i.toInt = -0x8000000000000000 := by omega
      rw [show x.value = i.toInt from hi, hmin]
      norm_num

theorem ofNumber_eq_int_iff (n : Json.Number) (i : Int64) :
    ofNumber n = .int i ↔ n.value = i.toInt ∧ ¬ n.IsLeastDouble := by
  rcases ofNumber_cases n with ⟨k, hk, hleast, hread⟩ | ⟨hleast, hread⟩
  · rw [hread, hk, int.injEq, and_iff_left hleast, ← Int64.toInt_inj]
    exact_mod_cast Iff.rfl
  · rw [hread]
    exact iff_of_false nofun fun h => h.2 (hleast i h.1)

theorem ofJson_eq (n : Json.Number) : ofJson (.number n) = .ok (ofNumber n) := rfl

/-- A number that is an integer in the range of 64 bits is read as that integer, unless it is
`-2^63` held as a double. Every other number is read as a double, the nearest one. So equal numbers
in that range are read as the same value, however they are held. -/
theorem ofJson_number (n : Json.Number) :
    (∀ i : Int64, ofJson (.number n) = .ok (.int i) ↔ n.value = i.toInt ∧ ¬ n.IsLeastDouble) ∧
    ((∃ x, ofJson (.number n) = .ok (.float x)) ↔
      (∀ i : Int64, n.value ≠ i.toInt) ∨ n.IsLeastDouble) ∧
    (∀ x, ofJson (.number n) = .ok (.float x) → x = n.nearest) ∧
    ∀ (m : Json.Number) (i : Int64), m.value = i.toInt → n.value = i.toInt →
      ¬ m.IsLeastDouble → ¬ n.IsLeastDouble → ofJson (.number m) = ofJson (.number n) := by
  simp only [ofJson_eq, Except.ok.injEq]
  refine ⟨ofNumber_eq_int_iff n, ?_, ?_, fun m i hm hn hmleast hnleast => ?_⟩
  · rcases ofNumber_cases n with ⟨k, hk, hleast, hread⟩ | ⟨hleast, hread⟩
    · rw [hread]
      exact iff_of_false nofun fun h => h.elim (fun h => h k hk) hleast
    · refine iff_of_true ⟨_, hread⟩ ?_
      by_cases h : ∃ i : Int64, n.value = i.toInt
      · exact .inr (hleast _ h.choose_spec)
      · exact .inl fun i hi => h ⟨i, hi⟩
  · intro x hx
    rcases ofNumber_cases n with ⟨k, -, -, hread⟩ | ⟨-, hread⟩
    · exact nomatch hread.symm.trans hx
    · exact float.inj (hx.symm.trans hread)
  · exact ((ofNumber_eq_int_iff m i).mpr ⟨hm, hmleast⟩).trans
      ((ofNumber_eq_int_iff n i).mpr ⟨hn, hnleast⟩).symm

/-- The double `-2^63`. -/
def leastDouble : Json.Number := .float ⟨.ofBits 0xc3e0000000000000, by decide +kernel⟩

theorem value_leastDouble : leastDouble.value = -0x8000000000000000 := by
  have hint : Binary64.toInt? (.ofBits 0xc3e0000000000000) = some (-0x8000000000000000) := by
    decide +kernel
  exact ((Finite.toInt?_eq_some_iff _).mp hint).trans (by norm_num)

/-- The integer `-2^63` is read as an integer, and the double that is equal to it is not. -/
theorem ofJson_leastDouble :
    leastDouble.value = Int64.minValue.toInt ∧
    leastDouble.value = (Json.Number.signed Int64.minValue).value ∧
    ofJson (.number (.signed Int64.minValue)) = .ok (.int Int64.minValue) ∧
    ofJson (.number leastDouble) = .ok (.float (.ofBits 0xc3e0000000000000)) ∧
    ofJson (.number leastDouble) ≠ .ok (.int Int64.minValue) := by
  have hvalue : leastDouble.value = Int64.minValue.toInt := by
    rw [value_leastDouble, Int64.toInt_minValue]
    norm_num
  have hread : ofNumber leastDouble = .float (.ofBits 0xc3e0000000000000) := by
    decide +kernel
  refine ⟨hvalue, hvalue, rfl, congrArg _ hread, ?_⟩
  rw [ofJson_eq, hread]
  exact nofun

/-- Four, held as an integer and as a double. -/
theorem ofJson_four :
    ofJson (.number (.unsigned 4)) = .ok (.int 4) ∧
    ∃ h : Binary64.isFinite 4.0 = true,
      ofJson (.number (.float ⟨4.0, h⟩)) = ofJson (.number (.unsigned 4)) := by
  have hfinite : Binary64.isFinite 4.0 = true := by decide +kernel
  have hvalue : (Json.Number.float ⟨4.0, hfinite⟩).value = (4 : Int64).toInt :=
    (Finite.toInt?_eq_some_iff ⟨4.0, hfinite⟩).mp
      (show Binary64.toInt? 4.0 = some (4 : Int64).toInt by decide +kernel)
  have hleast : ¬ IsLeastDouble (.float ⟨4.0, hfinite⟩) := by
    rintro ⟨x, hx, hmin⟩
    cases hx
    rw [show Finite.value ⟨4.0, hfinite⟩ = (4 : Int64).toInt from hvalue] at hmin
    exact absurd hmin (by decide +kernel)
  obtain ⟨hint, -, -, hsame⟩ := ofJson_number (.unsigned 4)
  exact ⟨(hint 4).mpr ⟨rfl, nofun⟩, hfinite, hsame _ 4 hvalue rfl hleast nofun⟩

/-! ### Writing and reading again -/

/-- What a value is after it is written as JSON and read again. -/
inductive Reloads : Value → Value → Prop
  | missing : Reloads .missing .missing
  | bool (b : Bool) : Reloads (.bool b) (.bool b)
  | int (n : Int64) : Reloads (.int n) (.int n)
  | text (s : String) : Reloads (.text s) (.text s)
  | lost {x : Float} (h : Binary64.isFinite x = false) : Reloads (.float x) .missing
  | whole {x : Finite} {n : Int64} (equal : x.value = n.toInt)
      (small : |x.value| < 0x8000000000000000) : Reloads (.float x) (.int n)
  | kept {x : Finite} (other : ∀ n : Int, x.value = n → 0x8000000000000000 ≤ |x.value|) :
      Reloads (.float x) (.float x)

/-- What is read of a value that is written. -/
def reloaded : Value → Value
  | .float x =>
    match Json.Number.ofFloat? x with
    | some n => ofNumber n
    | none => .missing
  | v => v

theorem ofFloat?_finite (x : Finite) : Json.Number.ofFloat? x = some (.float x) := by
  rw [Json.Number.ofFloat?, Finite.ofFloat?, dif_pos x.finite]
  rfl

theorem ofFloat?_of_not_finite {x : Float} (h : Binary64.isFinite x = false) :
    Json.Number.ofFloat? x = none := by
  rw [Json.Number.ofFloat?, Finite.ofFloat?, dif_neg (Bool.eq_false_iff.mp h)]
  rfl

/-- What a value is written as: an integer as the number that is equal to it, and a double as itself
if it is finite. -/
inductive WrittenAs : Value → Json → Prop
  | missing : WrittenAs .missing .null
  | bool (b : Bool) : WrittenAs (.bool b) (.bool b)
  | natural {n : Int64} {m : UInt64} (equal : (m.toNat : Int) = n.toInt) :
      WrittenAs (.int n) (.number (.unsigned m))
  | negative {n : Int64} (below : n.toInt < 0) : WrittenAs (.int n) (.number (.signed n))
  | finite (x : Finite) : WrittenAs (.float x) (.number (.float x))
  | lost {x : Float} (h : Binary64.isFinite x = false) : WrittenAs (.float x) .null
  | text (s : String) : WrittenAs (.text s) (.string s)

theorem writtenAs_toJson (v : Value) : v.WrittenAs v.toJson := by
  cases v with
  | missing => exact .missing
  | bool b => exact .bool b
  | text s => exact .text s
  | int n =>
    rw [toJson, ofSigned]
    split
    · next h =>
      have hnonneg : 0 ≤ n.toInt := Int64.le_iff_toInt_le.mp h
      have hnat : n.toUInt64.toNat = n.toInt.toNat := Int64.toNat_toUInt64_of_le h
      exact .natural (by rw [hnat, Int.toNat_of_nonneg hnonneg])
    · next h => exact .negative (Int.not_le.mp fun hle => h (Int64.le_iff_toInt_le.mpr hle))
  | float x =>
    rw [toJson, Json.ofFloat]
    cases h : Binary64.isFinite x with
    | false =>
      rw [ofFloat?_of_not_finite h]
      exact .lost h
    | true =>
      rw [show Json.Number.ofFloat? x = some (.float ⟨x, h⟩) from ofFloat?_finite ⟨x, h⟩]
      exact .finite ⟨x, h⟩

theorem ofJson_toJson (v : Value) : ofJson v.toJson = .ok v.reloaded := by
  cases v with
  | missing | bool b | text s => rfl
  | int n =>
    have hread : ofNumber (.ofSigned n) = .int n := by
      unfold ofNumber
      rw [toSigned?_ofSigned]
    exact congrArg Except.ok hread
  | float x =>
    rw [toJson, Json.ofFloat, reloaded]
    cases Json.Number.ofFloat? x <;> rfl

theorem reloads_reloaded (v : Value) : v.Reloads v.reloaded := by
  cases v with
  | missing => exact .missing
  | bool b => exact .bool b
  | int n => exact .int n
  | text s => exact .text s
  | float x =>
    rw [reloaded]
    cases h : Binary64.isFinite x with
    | false =>
      rw [ofFloat?_of_not_finite h]
      exact .lost h
    | true =>
      rw [show Json.Number.ofFloat? x = some (.float ⟨x, h⟩) from ofFloat?_finite ⟨x, h⟩]
      dsimp only
      rcases ofNumber_float ⟨x, h⟩ with ⟨n, hn, hsmall, hread⟩ | ⟨hlarge, hread⟩
      · rw [hread]
        exact .whole hn hsmall
      · rw [hread]
        exact .kept hlarge

/-- A number that is read as a double is read as that double again. -/
theorem reloaded_ofNumber (n : Json.Number) : (ofNumber n).reloaded = ofNumber n := by
  rcases ofNumber_cases n with ⟨i, -, -, hread⟩ | ⟨hleast, hread⟩
  · rw [hread]
    rfl
  · obtain ⟨x, hx, hagain⟩ : ∃ x : Finite,
        x.toFloat = n.nearest ∧ ofNumber (.float x) = .float x := by
      cases n with
      | unsigned n =>
        have hle : 0x8000000000000000 ≤ n.toNat := by
          by_contra hlt
          obtain ⟨i, hi, -⟩ := toSigned?_unsigned_of_lt (Nat.lt_of_not_le hlt)
          unfold ofNumber at hread
          rw [hi] at hread
          cases hread
        obtain ⟨k, hk, hlarge⟩ := toInt?_nearest_of_le hle
        have hfinite := Binary64.isFinite_ofNat (UInt64.toNat_lt n)
        exact ⟨⟨_, hfinite⟩, rfl, ofNumber_of_large (n := .float ⟨_, hfinite⟩) rfl hk hlarge⟩
      | signed n => cases hread
      | float x => exact ⟨x, rfl, hread⟩
    rw [hread, ← hx, reloaded, ofFloat?_finite]
    exact hagain

/-- What is read stays as it is. -/
theorem reloaded_of_ofJson {j : Json} {v : Value} (h : ofJson j = .ok v) : v.reloaded = v := by
  cases j with
  | null | bool b | string s =>
    cases h
    rfl
  | number n =>
    cases h
    exact reloaded_ofNumber n
  | array items | object members => cases h

end Value

end TablePipeline
