import TablePipeline.Value.Arithmetic
/-!
# Arithmetic on integers

Sums, differences, products and remainders of integers never wrap around: the result is the exact
one if it fits in 64 bits, and a double otherwise. There is one exception, the remainder of the least
integer by `-1`. It is zero, but a double all the same, since the quotient does not fit
(`ArithmeticOp.apply_ints`).
-/

namespace TablePipeline

namespace Word

/-- The integer fits in a signed word of 64 bits. -/
def Fits (n : Int) : Prop := -0x8000000000000000 ≤ n ∧ n < 0x8000000000000000

instance (n : Int) : Decidable (Fits n) := inferInstanceAs (Decidable (_ ∧ _))

theorem fits_toInt (w : Int64) : Fits w.toInt := ⟨Int64.le_toInt w, Int64.toInt_lt w⟩

theorem exists_signed? {n : Int} (h : Fits n) : ∃ w, signed? n = some w ∧ w.toInt = n :=
  ⟨_, if_pos h, signed?_eq_some_iff.mp (if_pos h)⟩

theorem signed?_eq_none {n : Int} (h : ¬ Fits n) : signed? n = none := if_neg h

end Word

namespace ArithmeticOp

variable {op : ArithmeticOp} {a b : Int64} {n : Int}

/-- The quotient does not fit in 64 bits, while the remainder does. -/
def QuotientOverflows (a b : Int64) : Prop := a = Int64.minValue ∧ b = -1

instance (a b : Int64) : Decidable (QuotientOverflows a b) := inferInstanceAs (Decidable (_ ∧ _))

/-- The operator comes to an integer if that fits in 64 bits, and to a double otherwise. -/
structure ExactOrDouble (op : ArithmeticOp) (a b : Int64) (exact : Int) (double : Float) :
    Prop where
  of_fits : Word.Fits exact →
    ∃ w : Int64, op.apply (.int a) (.int b) = .ok (.int w) ∧ w.toInt = exact
  of_not_fits : ¬ Word.Fits exact → op.apply (.int a) (.int b) = .ok (.float double)

/-- A remainder is nearer to zero than the divisor. -/
theorem fits_tmod (a : Int) (hb : b ≠ 0) : Word.Fits (a.tmod b.toInt) := by
  have hne : b.toInt ≠ 0 := fun h => hb (Int64.toInt_inj.mp h)
  have hfits := Word.fits_toInt b
  have hlt : (a.tmod b.toInt).natAbs < b.toInt.natAbs := by
    rw [Int.natAbs_tmod]
    exact Nat.mod_lt _ (Int.natAbs_pos.mpr hne)
  unfold Word.Fits at hfits ⊢
  omega

/-- An exact result that fits is the result. -/
theorem applyInts_of_fits (hexact : op.exact? a.toInt b.toInt = some n)
    (hmod : op = .mod → b ≠ 0 ∧ ¬ QuotientOverflows a b) (hfits : Word.Fits n) :
    ∃ w, op.applyInts a b = .ok (.int w) ∧ w.toInt = n := by
  obtain ⟨w, hw, hn⟩ := Word.exists_signed? hfits
  refine ⟨w, ?_, hn⟩
  have hsigned : op.exact? a.toInt b.toInt >>= Word.signed? = some w := by
    rw [hexact]
    exact hw
  rw [applyInts, if_neg fun hz => (hmod hz.1).1 hz.2, if_neg fun hq => (hmod hq.1).2 hq.2, hsigned]

/-- Where the exact result does not fit, an operator that does not divide is applied to doubles. -/
theorem applyInts_of_not_fits (hexact : op.exact? a.toInt b.toInt = some n)
    (hdivides : op.divides = false) (hfits : ¬ Word.Fits n) :
    op.applyInts a b
      = .ok (.float (op.onFloats (Binary64.ofInt a.toInt) (Binary64.ofInt b.toInt))) := by
  have hmod : op ≠ .mod := by
    rintro rfl
    cases hdivides
  have hsigned : op.exact? a.toInt b.toInt >>= Word.signed? = none := by
    rw [hexact]
    exact Word.signed?_eq_none hfits
  rw [applyInts, if_neg fun hz => hmod hz.1, if_neg fun hq => hmod hq.1, hsigned]
  simp only [applyFloats, Value.toFloat?]
  rw [if_neg]
  rw [hdivides, Bool.false_and]
  exact Bool.false_ne_true

theorem exactOrDouble_of_not_divides (hexact : op.exact? a.toInt b.toInt = some n)
    (hdivides : op.divides = false) :
    op.ExactOrDouble a b n (op.onFloats (Binary64.ofInt a.toInt) (Binary64.ofInt b.toInt)) where
  of_fits := by
    refine applyInts_of_fits hexact ?_
    rintro rfl
    cases hdivides
  of_not_fits := applyInts_of_not_fits hexact hdivides

theorem apply_zero (h : op.divides = true) (a : Int64) :
    op.apply (.int a) (.int 0) = .error .divisionByZero := by
  have hfloats : op.applyFloats (.int a) (.int 0) = .error .divisionByZero := by
    have hzero : (op.divides && Binary64.ofInt (0 : Int64).toInt == 0.0) = true := by
      rw [h]
      decide
    simp only [applyFloats, Value.toFloat?]
    rw [if_pos hzero]
  cases op with
  | add | sub | mul | exp => cases h
  | mod => rfl
  | div => exact hfloats

/-- The sum, the difference and the product of two integers are exact if they fit in 64 bits, and
otherwise those of the doubles. The truncated remainder always fits, and is exact unless the
quotient does not fit: then it is the double `-0`. Dividing by zero is an error. -/
theorem apply_ints (a b : Int64) :
    ExactOrDouble .add a b (a.toInt + b.toInt)
      (Binary64.ofInt a.toInt + Binary64.ofInt b.toInt) ∧
    ExactOrDouble .sub a b (a.toInt - b.toInt)
      (Binary64.ofInt a.toInt - Binary64.ofInt b.toInt) ∧
    ExactOrDouble .mul a b (a.toInt * b.toInt)
      (Binary64.ofInt a.toInt * Binary64.ofInt b.toInt) ∧
    (b ≠ 0 → Word.Fits (a.toInt.tmod b.toInt) ∧
      (¬ QuotientOverflows a b → ∃ w : Int64,
        ArithmeticOp.mod.apply (.int a) (.int b) = .ok (.int w) ∧ w.toInt = a.toInt.tmod b.toInt) ∧
      (QuotientOverflows a b →
        ArithmeticOp.mod.apply (.int a) (.int b) = .ok (.float (-0.0)))) ∧
    ArithmeticOp.div.apply (.int a) (.int 0) = .error .divisionByZero ∧
    ArithmeticOp.mod.apply (.int a) (.int 0) = .error .divisionByZero := by
  refine ⟨exactOrDouble_of_not_divides rfl rfl, exactOrDouble_of_not_divides rfl rfl,
    exactOrDouble_of_not_divides rfl rfl, fun hb => ⟨fits_tmod _ hb, fun hquotient => ?_, ?_⟩,
    apply_zero rfl a, apply_zero rfl a⟩
  · exact applyInts_of_fits rfl (fun _ => ⟨hb, hquotient⟩) (fits_tmod _ hb)
  · rintro ⟨rfl, rfl⟩
    rfl

theorem apply_ints_square_and_remainder :
    (∃ w : Int64, ArithmeticOp.sub.apply (.int 2) (.int 5) = .ok (.int w) ∧ w.toInt = -3) ∧
    ArithmeticOp.add.apply (.int 9223372036854775807) (.int 2)
      = .ok (.float (9223372036854775808 + 2)) ∧
    ArithmeticOp.mul.apply (.int 3037000500) (.int 3037000500)
      = .ok (.float (3037000500 * 3037000500)) ∧
    (∃ w : Int64, ArithmeticOp.mod.apply (.int (-7)) (.int 2) = .ok (.int w) ∧ w.toInt = -1) ∧
    ArithmeticOp.div.apply (.int (-7)) (.int 0) = .error .divisionByZero ∧
    ArithmeticOp.mod.apply (.int (-7)) (.int 0) = .error .divisionByZero := by
  obtain ⟨hsum, -⟩ := apply_ints 9223372036854775807 2
  obtain ⟨-, hdifference, -⟩ := apply_ints 2 5
  obtain ⟨-, -, hproduct, -⟩ := apply_ints 3037000500 3037000500
  obtain ⟨-, -, -, hremainder, hdiv, hmod⟩ := apply_ints (-7) 2
  refine ⟨hdifference.of_fits (by decide), ?_, ?_, (hremainder (by decide)).2.1 (by decide), hdiv,
    hmod⟩
  · rw [hsum.of_not_fits (by decide)]
    rfl
  · rw [hproduct.of_not_fits (by decide)]
    rfl

/-- The remainder of the least integer by `-1` is zero, and comes out as the double `-0`. -/
theorem leastInt_mod_minusOne :
    Int64.minValue.toInt.tmod (-1 : Int64).toInt = 0 ∧ Word.Fits 0 ∧ (-1 : Int64) ≠ 0 ∧
    ArithmeticOp.mod.apply (.int Int64.minValue) (.int (-1)) = .ok (.float (-0.0)) ∧
    ArithmeticOp.mod.apply (.int Int64.minValue) (.int (-1)) ≠ .ok (.int 0) :=
  ⟨by decide, by decide, by decide, rfl, nofun⟩

end ArithmeticOp

end TablePipeline
