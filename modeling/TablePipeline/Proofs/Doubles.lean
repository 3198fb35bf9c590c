import Mathlib
import TablePipeline.Binary64
/-!
# Finite doubles

The bits of a finite double are kept when it is made of them and read off it (`toBits_ofBits`), it
is equal to itself (`beq_self`), and every integer of 64 bits is near one (`isFinite_ofNat`). All
three go back to the packing and unpacking of doubles.
-/

namespace TablePipeline.Binary64

open Float.Model (Format UnpackedFloat)
open Float.Model.UnpackedFloat (Sign unpackSign unpackExponent unpackMantissa packComponents)

section Packing

variable {b : BitVec 64} {s : Sign} {e : BitVec 11} {m : BitVec 52}

theorem toNat_unpackExponent (b : BitVec 64) :
    (@unpackExponent Format.binary64 b).toNat = b.toNat / 0x10000000000000 % 2048 := by
  simp [unpackExponent, BitVec.extractLsb, Nat.shiftRight_eq_div_pow]

theorem toNat_unpackMantissa (b : BitVec 64) :
    (@unpackMantissa Format.binary64 b).toNat = b.toNat % 0x10000000000000 := by
  simp [unpackMantissa, BitVec.extractLsb]

theorem toNat_unpackSign (b : BitVec 64) :
    (@unpackSign Format.binary64 b).toNat = b.toNat / 0x8000000000000000 := by
  have hb : b.toNat < 2 ^ 64 := b.isLt
  simp [unpackSign, BitVec.extractLsb, Nat.shiftRight_eq_div_pow]
  omega

theorem toNat_packComponents (s : Sign) (e : BitVec 11) (m : BitVec 52) :
    (packComponents Format.binary64 s e m).toNat
      = s.toBitVec.toNat * 0x8000000000000000 + e.toNat * 0x10000000000000 + m.toNat := by
  have he := e.isLt
  have hm := m.isLt
  rw [packComponents, BitVec.toNat_append, BitVec.toNat_append,
    ← Nat.shiftLeft_add_eq_or_of_lt hm, ← Nat.shiftLeft_add_eq_or_of_lt he,
    Nat.shiftLeft_eq, Nat.shiftLeft_eq]
  omega

/-- The parts of the bits put together again. -/
theorem packComponents_unpack (b : BitVec 64) :
    packComponents Format.binary64 (Sign.ofBitVec (@unpackSign Format.binary64 b))
      (@unpackExponent Format.binary64 b) (@unpackMantissa Format.binary64 b)
      = b := by
  have hsign : ∀ s : BitVec 1, (Sign.ofBitVec s).toBitVec = s := by decide
  have hb : b.toNat < 2 ^ 64 := b.isLt
  refine BitVec.eq_of_toNat_eq ?_
  rw [toNat_packComponents, hsign, toNat_unpackSign, toNat_unpackExponent, toNat_unpackMantissa]
  omega

theorem unpackExponent_lt (h : b.toNat % 0x8000000000000000 < infinityBits) :
    (@unpackExponent Format.binary64 b).toNat < 2047 := by
  rw [toNat_unpackExponent]
  unfold infinityBits at h
  omega

theorem unpackExponent_ne (h : b.toNat % 0x8000000000000000 < infinityBits) :
    @unpackExponent Format.binary64 b ≠ -1#11 := by
  intro heq
  have hlt := unpackExponent_lt h
  rw [heq] at hlt
  exact absurd hlt (by decide)

theorem pack_normal (he : e.toNat < 2047) (h : 0 < (1#1 ++ m).toNat) :
    UnpackedFloat.pack Format.binary64 (.finite s (1#1 ++ m).toNat
      ((e.toNat : Int) - (Format.binary64.exponentBias + 52)) h)
      = packComponents Format.binary64 s e m := by
  have hm := m.isLt
  have happ : (1#1 ++ m).toNat = 2 ^ 52 + m.toNat := by
    rw [BitVec.toNat_append, ← Nat.shiftLeft_add_eq_or_of_lt hm]
    rfl
  have hlog : (1#1 ++ m).toNat.log2 = 52 :=
    (Nat.log2_eq_iff (by omega)).mpr ⟨by omega, by omega⟩
  have hbiased : ((e.toNat : Int) - (Format.binary64.exponentBias + 52)
      + Format.binary64.exponentBias + (52 : Nat)).toNat = e.toNat := by
    omega
  have hmantissa : BitVec.ofNat 52 (1#1 ++ m).toNat = m := by
    refine BitVec.eq_of_toNat_eq ?_
    rw [BitVec.toNat_ofNat]
    omega
  unfold UnpackedFloat.pack
  simp only [hbiased, hlog]
  rw [if_neg (by omega), if_pos (by decide), hmantissa, BitVec.ofNat_toNat, BitVec.setWidth_eq]

theorem pack_subnormal (h : 0 < m.toNat) :
    UnpackedFloat.pack Format.binary64
      (.finite s m.toNat ((0 : Int) - (Format.binary64.exponentBias + 52) + 1) h)
      = packComponents Format.binary64 s 0#11 m := by
  have hlog : m.toNat.log2 < 52 := (Nat.log2_lt (by omega)).mpr m.isLt
  have hbiased : ((0 : Int) - (Format.binary64.exponentBias + 52) + 1
      + Format.binary64.exponentBias + (52 : Nat)).toNat = 1 := by
    omega
  have hwidth : Format.binary64.mantissaBits = 53 := rfl
  unfold UnpackedFloat.pack
  simp only [hbiased, hwidth]
  rw [if_neg (by decide), if_neg (by omega), BitVec.ofNat_toNat, BitVec.setWidth_eq]

/-- Unpacking loses nothing of the bits of a finite double. -/
theorem pack_unpack (h : b.toNat % 0x8000000000000000 < infinityBits) :
    UnpackedFloat.pack Format.binary64 (UnpackedFloat.unpack Format.binary64 b) = b := by
  have hlt := unpackExponent_lt h
  have hpack := packComponents_unpack b
  unfold UnpackedFloat.unpack
  simp only [unpackExponent_ne h, if_false]
  split
  · next hzero =>
    rw [hzero] at hpack ⊢
    split
    · next hm =>
      rw [hm] at hpack
      exact hpack
    · exact (pack_subnormal _).trans hpack
  · exact (pack_normal hlt _).trans hpack

theorem unpack_ne_notANumber (h : b.toNat % 0x8000000000000000 < infinityBits) :
    UnpackedFloat.unpack Format.binary64 b ≠ .notANumber := by
  unfold UnpackedFloat.unpack
  simp only [unpackExponent_ne h, if_false]
  split
  · split <;> simp
  · simp

end Packing

/-- The bits of a finite double are the bits that it is made of. -/
theorem toBits_ofBits {b : UInt64} (h : b.toNat % 0x8000000000000000 < infinityBits) :
    (Float.ofBits b).toBits = b := by
  change UInt64.ofBitVec (UnpackedFloat.pack Format.binary64
    (UnpackedFloat.unpack Format.binary64 b.toBitVec)) = b
  rw [pack_unpack h]

theorem beq_self {x : Float} (h : isFinite x = true) : (x == x) = true := by
  have hne := unpack_ne_notANumber (b := x.toBits.toBitVec) (of_decide_eq_true h)
  change UnpackedFloat.beq (UnpackedFloat.unpack Format.binary64 x.toBits.toBitVec)
    (UnpackedFloat.unpack Format.binary64 x.toBits.toBitVec) = true
  unfold UnpackedFloat.beq
  cases hu : UnpackedFloat.unpack Format.binary64 x.toBits.toBitVec with
  | notANumber => exact absurd hu hne
  | infinity s => cases s <;> rfl
  | zero s => rfl
  | finite s m e hm => cases s <;> simp [UnpackedFloat.compare]

theorem toNat_toBits_ofMagnitude {bits : Nat} (negative : Bool) (h : bits < infinityBits) :
    (ofMagnitude negative bits).toBits.toNat
      = if negative then 0x8000000000000000 + bits else bits := by
  have hinf : infinityBits = 0x7ff0000000000000 := rfl
  have hbits : (UInt64.ofNat (if negative then 0x8000000000000000 + bits else bits)).toNat
      = if negative then 0x8000000000000000 + bits else bits := by
    rw [UInt64.toNat_ofNat', Nat.mod_eq_of_lt]
    split <;> omega
  have hmod : (if negative then 0x8000000000000000 + bits else bits) % 0x8000000000000000 = bits := by
    split <;> omega
  rw [ofMagnitude, toBits_ofBits, hbits]
  rw [hbits, hmod]
  exact h

theorem magnitude_ofMagnitude {bits : Nat} (negative : Bool) (h : bits < infinityBits) :
    magnitude (ofMagnitude negative bits) = bits := by
  have hinf : infinityBits = 0x7ff0000000000000 := rfl
  rw [magnitude, toNat_toBits_ofMagnitude negative h]
  split <;> omega

theorem isFinite_ofMagnitude {bits : Nat} (negative : Bool) (h : bits < infinityBits) :
    isFinite (ofMagnitude negative bits) = true := by
  rw [isFinite, magnitude_ofMagnitude negative h]
  exact decide_eq_true h

theorem roundHalfEven_le (n d : Nat) : roundHalfEven n d ≤ n / d + 1 := by
  unfold roundHalfEven
  grind

theorem log2Quotient_one {n : Nat} (h : n ≠ 0) : log2Quotient n 1 = n.log2 := by
  have hpow : 1 * twoPow n.log2 ≤ n * twoPow 0 := by
    rw [Nat.one_mul, twoPow_zero, Nat.mul_one]
    exact Nat.log2_self_le h
  have hone : Nat.log2 1 = 0 := by decide
  have hneg : (-(n.log2 : Int)).toNat = 0 := by omega
  simp only [log2Quotient, hone, Int.ofNat_zero, Int.sub_zero, Int.toNat_natCast, hneg]
  rw [if_pos hpow]

/-- The significand of an integer has 53 bits before it is rounded. -/
theorem scaled_lt (n : Nat) :
    n * twoPow (52 - (n.log2 : Int)).toNat / (1 * twoPow ((n.log2 : Int) - 52).toNat)
      < 2 ^ 53 := by
  have hlt : n < 2 ^ (n.log2 + 1) := Nat.lt_log2_self
  rw [Nat.one_mul]
  by_cases hn : n.log2 ≤ 52
  · obtain ⟨k, hk⟩ := Nat.exists_eq_add_of_le hn
    rw [show (52 - (n.log2 : Int)).toNat = k by omega,
      show ((n.log2 : Int) - 52).toNat = 0 by omega, twoPow_zero, Nat.div_one]
    calc n * twoPow k < 2 ^ (n.log2 + 1) * 2 ^ k := Nat.mul_lt_mul_of_pos_right hlt (Nat.two_pow_pos k)
      _ = 2 ^ 53 := by rw [← Nat.pow_add]; congr 1; omega
  · obtain ⟨k, hk⟩ := Nat.exists_eq_add_of_le (Nat.le_of_not_le hn)
    rw [show (52 - (n.log2 : Int)).toNat = 0 by omega,
      show ((n.log2 : Int) - 52).toNat = k by omega, twoPow_zero, Nat.mul_one]
    refine Nat.div_lt_of_lt_mul ?_
    change n < 2 ^ k * 2 ^ 53
    rw [← Nat.pow_add]
    exact Nat.lt_of_lt_of_eq hlt (congrArg _ (by omega))

/-- Naturals of 64 bits are far below the greatest double. -/
theorem nearestBits_lt {n : Nat} (h : n < 2 ^ 64) : nearestBits n 1 < infinityBits := by
  unfold nearestBits
  split
  · decide
  next hn =>
  have hlog : n.log2 < 64 := (Nat.log2_lt hn).mpr h
  have hmax : max (-1074) (log2Quotient n 1 - 52) = (n.log2 : Int) - 52 := by
    rw [log2Quotient_one hn]
    omega
  have hscaled := scaled_lt n
  simp only [hmax, Int.neg_sub]
  have hround := roundHalfEven_le (n * twoPow (52 - (n.log2 : Int)).toNat)
    (1 * twoPow ((n.log2 : Int) - 52).toNat)
  unfold infinityBits implicitBit
  omega

theorem isFinite_ofNat {n : Nat} (h : n < 2 ^ 64) : isFinite (ofInt n) = true :=
  isFinite_ofMagnitude _ (nearestBits_lt h)

end TablePipeline.Binary64
