import TablePipeline.Proofs.Rounding
/-!
# The numbers that doubles stand for

A finite double is a rational number, `Finite.value`. It is equal to an integer if and only if
`toInt?` finds that integer (`Finite.toInt?_eq_some_iff`), and the double of a natural is the
significand of the natural at its leading bit (`ofFloat?_ofNat`).
-/

namespace TablePipeline.Binary64

namespace Scaled

/-- The number without its sign. -/
def size (s : Scaled) : ℚ := s.significand * 2 ^ s.exponent

/-- The number that a sign, a significand and an exponent stand for. -/
def value (s : Scaled) : ℚ := if s.negative then -s.size else s.size

theorem isSome_ofFloat? (x : Float) : (ofFloat? x).isSome = isFinite x := by
  unfold ofFloat?
  cases isFinite x with
  | false => rfl
  | true =>
    simp only [if_true]
    split <;> rfl

theorem size_nonneg (s : Scaled) : 0 ≤ s.size := by
  unfold size
  positivity

/-- A number is a natural if and only if no bit of its significand is below the point. -/
theorem size_eq_natCast_iff (s : Scaled) (k : Nat) :
    s.size = k ↔ s.significand % twoPow (-s.exponent).toNat = 0 ∧
      s.significand / twoPow (-s.exponent).toNat * twoPow s.exponent.toNat = k := by
  obtain ⟨negative, m, e⟩ := s
  change (m : ℚ) * 2 ^ e = k ↔ m % twoPow (-e).toNat = 0 ∧
    m / twoPow (-e).toNat * twoPow e.toNat = k
  rcases Int.eq_nat_or_neg e with ⟨a, rfl | rfl⟩
  · rw [show (-(a : Int)).toNat = 0 by omega, Int.toNat_natCast, twoPow_zero, Nat.mod_one,
      Nat.div_one, zpow_natCast]
    change _ ↔ _ ∧ m * 2 ^ a = k
    rw [eq_self, true_and]
    exact_mod_cast Iff.rfl
  · have hunit : (2 : ℚ) ^ a ≠ 0 := by positivity
    rw [show (-(a : Int)).toNat = 0 by omega, Int.neg_neg, Int.toNat_natCast, twoPow_zero,
      Nat.mul_one, zpow_neg, zpow_natCast, ← div_eq_mul_inv, div_eq_iff hunit]
    change _ ↔ m % 2 ^ a = 0 ∧ m / 2 ^ a = k
    have hpos : 0 < 2 ^ a := Nat.two_pow_pos a
    have hcast : (m : ℚ) = k * 2 ^ a ↔ m = k * 2 ^ a := by exact_mod_cast Iff.rfl
    rw [hcast]
    constructor
    · rintro rfl
      exact ⟨Nat.mul_mod_left _ _, Nat.mul_div_cancel _ hpos⟩
    · rintro ⟨hmod, rfl⟩
      exact (Nat.div_mul_cancel (Nat.dvd_of_mod_eq_zero hmod)).symm

theorem value_eq_intCast_iff (s : Scaled) (n : Int) :
    s.value = n ↔ s.size = n.natAbs ∧ n = if s.negative then -(n.natAbs : Int) else n.natAbs := by
  have hcast (k : Int) (hk : 0 ≤ k) : ((k.natAbs : Nat) : ℚ) = k := by
    rw [Nat.cast_natAbs, abs_of_nonneg hk]
  have hsize := s.size_nonneg
  unfold value
  cases s.negative with
  | false =>
    simp only [Bool.false_eq_true, if_false]
    constructor
    · intro h
      have hn : 0 ≤ n := by rw [h] at hsize; exact_mod_cast hsize
      exact ⟨h.trans (hcast n hn).symm, (Int.natAbs_of_nonneg hn).symm⟩
    · rintro ⟨h, hn⟩
      exact h.trans (hcast n (by omega))
  | true =>
    simp only [if_true]
    rw [neg_eq_iff_eq_neg, ← Int.cast_neg, ← Int.natAbs_neg]
    constructor
    · intro h
      have hn : 0 ≤ -n := by rw [h] at hsize; exact_mod_cast hsize
      exact ⟨h.trans (hcast _ hn).symm, by omega⟩
    · rintro ⟨h, hn⟩
      exact h.trans (hcast _ (by omega))

end Scaled

/-- A double is equal to an integer if and only if the number read off it is that integer. -/
theorem toInt?_eq_some_iff {x : Float} {n : Int} :
    toInt? x = some n ↔ ∃ s, Scaled.ofFloat? x = some s ∧ s.value = n := by
  unfold toInt?
  rw [Option.bind_eq_bind, Option.bind_eq_some_iff]
  refine exists_congr fun s => and_congr_right fun _ => ?_
  rw [Scaled.value_eq_intCast_iff, Scaled.size_eq_natCast_iff]
  dsimp only
  by_cases h : s.significand % twoPow (-s.exponent).toNat = 0
  · rw [if_pos h]
    simp only [h, true_and, pure, Option.some.injEq]
    split <;> omega
  · rw [if_neg h]
    exact iff_of_false nofun fun hn => h hn.1.1

namespace Finite

variable (x : Finite)

/-- The parts of a finite double. -/
def scaled : Scaled :=
  (Scaled.ofFloat? x).get ((Scaled.isSome_ofFloat? x).trans x.finite)

/-- The number that a finite double stands for. -/
def value : ℚ := x.scaled.value

theorem ofFloat?_eq : Scaled.ofFloat? x = some x.scaled := (Option.some_get _).symm

theorem toInt?_eq_some_iff {n : Int} : toInt? x = some n ↔ x.value = n := by
  rw [Binary64.toInt?_eq_some_iff, ofFloat?_eq]
  simp [value]

end Finite

/-! ### Naturals rounded to doubles -/

/-- The number of a double whose bits hold a normal significand at an exponent. A significand of
one bit more than fits carries over into the exponent. -/
theorem ofFloat?_of_magnitude {x : Float} {e m : Nat} (hx : isFinite x = true)
    (h : magnitude x = e * implicitBit + m) (hlower : implicitBit ≤ m)
    (hupper : m ≤ 2 * implicitBit) :
    ∃ s, Scaled.ofFloat? x = some s ∧ s.negative = isNegative x ∧
      s.size = m * 2 ^ ((e : Int) - 1074) := by
  unfold implicitBit at h hlower hupper
  have hfield : magnitude x / implicitBit ≠ 0 := by
    unfold implicitBit
    omega
  refine ⟨⟨isNegative x, implicitBit + magnitude x % implicitBit,
    ((magnitude x / implicitBit : Nat) : Int) - 1075⟩, ?_, rfl, ?_⟩
  · rw [Scaled.ofFloat?, if_pos hx]
    dsimp only
    rw [if_neg hfield]
  · rcases Nat.lt_or_eq_of_le hupper with hlt | rfl
    · have hexponent : magnitude x / implicitBit = e + 1 := by
        unfold implicitBit
        omega
      have hsignificand : implicitBit + magnitude x % implicitBit = m := by
        unfold implicitBit
        omega
      rw [Scaled.size, hexponent, hsignificand,
        show ((e + 1 : Nat) : Int) - 1075 = e - 1074 by omega]
    · have hexponent : magnitude x / implicitBit = e + 2 := by
        unfold implicitBit
        omega
      have hsignificand : magnitude x % implicitBit = 0 := by
        unfold implicitBit
        omega
      rw [Scaled.size, hexponent, hsignificand,
        show ((e + 2 : Nat) : Int) - 1075 = ((e : Int) - 1074) + 1 by omega,
        zpow_add_one₀ two_ne_zero]
      push_cast [implicitBit]
      ring

/-- The double of a natural is its significand at its leading bit. -/
theorem ofFloat?_ofNat {n : Nat} (hn : n ≠ 0) (h : n < 2 ^ 64) :
    ∃ s, Scaled.ofFloat? (ofInt n) = some s ∧ s.negative = false ∧
      s.size = significandAt n.log2 n * 2 ^ ((n.log2 : Int) - 52) := by
  have hfinite := nearestBits_lt h
  have hbits : nearestBits n 1 = (n.log2 + 1022) * implicitBit + significandAt n.log2 n := by
    have heq := nearestBits_eq hn
    omega
  have hmagnitude : magnitude (ofInt n) = nearestBits n 1 := magnitude_ofMagnitude _ hfinite
  obtain ⟨s, hs, hnegative, hsize⟩ := ofFloat?_of_magnitude (isFinite_ofNat h)
    (hmagnitude.trans hbits) (le_significandAt_log2 hn) (significandAt_log2_le n)
  refine ⟨s, hs, hnegative.trans (isNegative_ofMagnitude _ hfinite), ?_⟩
  rw [hsize, show ((n.log2 + 1022 : Nat) : Int) - 1074 = n.log2 - 52 by omega]

/-- From `2 ^ 63` to `2 ^ 64` the doubles are the multiples of `2048`. -/
theorem toInt?_ofNat_of_le {n : Nat} (hle : 0x8000000000000000 ≤ n) (h : n < 2 ^ 64) :
    toInt? (ofInt n) = some ((roundHalfEven n 2048 * 2048 : Nat) : Int) := by
  have hn : n ≠ 0 := by omega
  have hlog : n.log2 = 63 := (Nat.log2_eq_iff hn).mpr ⟨by omega, by omega⟩
  have hsignificand : significandAt n.log2 n = roundHalfEven n 2048 := by
    rw [significandAt, hlog]
    exact congrArg (roundHalfEven · 2048) (Nat.mul_one n)
  obtain ⟨s, hs, hnegative, hsize⟩ := ofFloat?_ofNat hn h
  refine toInt?_eq_some_iff.mpr ⟨s, hs, ?_⟩
  rw [Scaled.value, hnegative, hsize, hsignificand, hlog]
  norm_num

end TablePipeline.Binary64
