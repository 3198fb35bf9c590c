import TablePipeline.Proofs.Doubles
/-!
# Rounding integers to doubles

Two integers are rounded to doubles in their order, or to one double (`place_mono`).
-/

namespace TablePipeline.Binary64

/-! ### Naturals -/

theorem le_roundHalfEven (n d : Nat) : n / d ≤ roundHalfEven n d := by
  unfold roundHalfEven
  grind

theorem roundHalfEven_mono {m n : Nat} (d : Nat) (h : m ≤ n) :
    roundHalfEven m d ≤ roundHalfEven n d := by
  have hquotient : m / d ≤ n / d := Nat.div_le_div_right h
  by_cases heq : m / d = n / d
  · -- The quotients are equal, so that the remainders decide.
    have hrest : m % d ≤ n % d := by
      have hm := Nat.div_add_mod m d
      have hn := Nat.div_add_mod n d
      rw [heq] at hm
      omega
    unfold roundHalfEven
    grind
  · have hm := roundHalfEven_le m d
    have hn := le_roundHalfEven n d
    omega

/-- The significand of a natural, as a multiple of `2 ^ (e - 52)`. -/
def significandAt (e n : Nat) : Nat :=
  roundHalfEven (n * twoPow (52 - (e : Int)).toNat) (1 * twoPow ((e : Int) - 52).toNat)

theorem significandAt_mono {m n : Nat} (e : Nat) (h : m ≤ n) :
    significandAt e m ≤ significandAt e n :=
  roundHalfEven_mono _ (Nat.mul_le_mul_right _ h)

theorem significandAt_log2_le (n : Nat) : significandAt n.log2 n ≤ 2 * implicitBit := by
  have hround := roundHalfEven_le (n * twoPow (52 - (n.log2 : Int)).toNat)
    (1 * twoPow ((n.log2 : Int) - 52).toNat)
  have hscaled := scaled_lt n
  unfold significandAt implicitBit
  omega

/-- The leading bit of a natural is that of its significand. -/
theorem le_significandAt_log2 {n : Nat} (h : n ≠ 0) : implicitBit ≤ significandAt n.log2 n := by
  refine Nat.le_trans ?_ (le_roundHalfEven _ _)
  have hle : 2 ^ n.log2 ≤ n := Nat.log2_self_le h
  rw [Nat.one_mul]
  by_cases hn : n.log2 ≤ 52
  · obtain ⟨k, hk⟩ := Nat.exists_eq_add_of_le hn
    rw [show (52 - (n.log2 : Int)).toNat = k by omega,
      show ((n.log2 : Int) - 52).toNat = 0 by omega, twoPow_zero, Nat.div_one]
    calc implicitBit = 2 ^ n.log2 * 2 ^ k := by rw [← Nat.pow_add, ← hk]; rfl
      _ ≤ n * twoPow k := Nat.mul_le_mul_right _ hle
  · obtain ⟨k, hk⟩ := Nat.exists_eq_add_of_le (Nat.le_of_not_le hn)
    rw [show (52 - (n.log2 : Int)).toNat = 0 by omega,
      show ((n.log2 : Int) - 52).toNat = k by omega, twoPow_zero, Nat.mul_one]
    refine (Nat.le_div_iff_mul_le (Nat.two_pow_pos k)).mpr ?_
    calc implicitBit * twoPow k = 2 ^ n.log2 := by rw [hk, Nat.pow_add]; rfl
      _ ≤ n := hle

theorem nearestBits_eq {n : Nat} (h : n ≠ 0) : nearestBits n 1
    = min infinityBits ((n.log2 + 1022) * implicitBit + significandAt n.log2 n) := by
  have hmax : max (-1074) (log2Quotient n 1 - 52) = (n.log2 : Int) - 52 := by
    rw [log2Quotient_one h]
    omega
  have hexponent : ((n.log2 : Int) - 52 + 1074).toNat = n.log2 + 1022 := by omega
  rw [nearestBits, if_neg h]
  simp only [hmax, Int.neg_sub, hexponent, significandAt]

/-- The bits of the nearest double grow with the natural. -/
theorem nearestBits_mono {m n : Nat} (h : m ≤ n) : nearestBits m 1 ≤ nearestBits n 1 := by
  by_cases hm : m = 0
  · rw [hm]
    exact Nat.zero_le _
  have hn : n ≠ 0 := by omega
  rw [nearestBits_eq hm, nearestBits_eq hn]
  refine min_le_min_left _ ?_
  have hlog : m.log2 ≤ n.log2 := (Nat.le_log2 hn).mpr (Nat.le_trans (Nat.log2_self_le hm) h)
  by_cases heq : m.log2 = n.log2
  · have hsignificand := significandAt_mono n.log2 h
    rw [heq]
    omega
  · -- The larger natural has a larger exponent, which makes up for any significand.
    have hupper := significandAt_log2_le m
    have hlower := le_significandAt_log2 hn
    have hexponent : (m.log2 + 1022 + 1) * implicitBit ≤ (n.log2 + 1022) * implicitBit :=
      Nat.mul_le_mul_right _ (by omega)
    rw [Nat.add_one_mul] at hexponent
    omega

/-! ### Integers -/

/-- The place of an integer among the doubles, to the nearest of which it is rounded. -/
def place (n : Int) : Int :=
  if n < 0 then -(nearestBits n.natAbs 1 : Int) else nearestBits n.natAbs 1

theorem place_mono {m n : Int} (h : m ≤ n) : place m ≤ place n := by
  unfold place
  by_cases hm : m < 0
  · by_cases hn : n < 0
    · have hbits : nearestBits n.natAbs 1 ≤ nearestBits m.natAbs 1 := nearestBits_mono (by omega)
      rw [if_pos hm, if_pos hn]
      omega
    · rw [if_pos hm, if_neg hn]
      omega
  · have hbits : nearestBits m.natAbs 1 ≤ nearestBits n.natAbs 1 := nearestBits_mono (by omega)
    rw [if_neg hm, if_neg (by omega)]
    omega

theorem isNegative_ofMagnitude {bits : Nat} (negative : Bool) (h : bits < infinityBits) :
    isNegative (ofMagnitude negative bits) = negative := by
  have hinf : infinityBits = 0x7ff0000000000000 := rfl
  rw [isNegative, toNat_toBits_ofMagnitude negative h]
  cases negative with
  | false => exact decide_eq_false (by simp; omega)
  | true => exact decide_eq_true (by simp)

theorem rank?_ofMagnitude {bits : Nat} (negative : Bool) (h : bits < infinityBits) :
    rank? (ofMagnitude negative bits) = some (if negative then -(bits : Int) else bits) := by
  have hnan : isNaN (ofMagnitude negative bits) = false := by
    rw [isNaN, magnitude_ofMagnitude negative h]
    exact decide_eq_false (by omega)
  rw [rank?, hnan, isNegative_ofMagnitude negative h, magnitude_ofMagnitude negative h]
  rfl

/-- Integers of 64 bits are far below the greatest double. -/
theorem nearestBits_natAbs_lt (n : Int64) : nearestBits n.toInt.natAbs 1 < infinityBits := by
  have hlower := Int64.le_toInt n
  have hupper := Int64.toInt_lt n
  exact nearestBits_lt (by omega)

theorem isFinite_ofInt (n : Int64) : isFinite (ofInt n.toInt) = true :=
  isFinite_ofMagnitude _ (nearestBits_natAbs_lt n)

theorem rank?_ofInt (n : Int64) : rank? (ofInt n.toInt) = some (place n.toInt) := by
  rw [ofInt, nearest, rank?_ofMagnitude _ (nearestBits_natAbs_lt n), place]
  simp

end TablePipeline.Binary64
