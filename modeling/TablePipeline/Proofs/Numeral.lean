import Mathlib
import TablePipeline.Json.Numeral
import TablePipeline.Json.Writer
/-!
# Reading numbers back

What follows a numeral does not change how it is read (`scan?_append`). An integer that is held in
64 bits is read back from its digits (`readsBack_unsigned`, `readsBack_ofSigned`). Of doubles this
is not claimed: the reader may miss the last bit.
-/

namespace TablePipeline.Json

open Binary64 (natOfDigits)

/-- The number is read back from what is written for it. -/
def Number.ReadsBack (n : Number) : Prop :=
  ∃ t : Numeral, Numeral.scan? n.write = some (t, []) ∧ t.toNumber? = some n

instance (n : Number) : Decidable n.ReadsBack :=
  decidable_of_iff (∃ found ∈ Numeral.scan? n.write,
    found.2 = [] ∧ found.1.toNumber? = some n) <| by
    constructor
    · rintro ⟨⟨t, rest⟩, hscan, rfl, hnumber⟩
      exact ⟨t, hscan, hnumber⟩
    · rintro ⟨t, hscan, hnumber⟩
      exact ⟨(t, []), hscan, rfl, hnumber⟩

namespace Numeral

/-- A character that may go on with a numeral. -/
def isPart (c : Char) : Bool := c.isDigit || c == '.' || c == 'e' || c == 'E'

/-- The text does not go on with a numeral. -/
def Ended (rest : List Char) : Prop := ∀ c ∈ rest.head?, isPart c = false

variable {cs rest r : List Char}

theorem ended_cons {c : Char} (h : isPart c = false) : Ended (c :: rest) := by
  intro d hd
  cases hd
  exact h

theorem Ended.not_digit (h : Ended rest) : ∀ c ∈ rest.head?, c.isDigit = false := by
  intro c hc
  have hpart := h c hc
  simp only [isPart, Bool.or_eq_false_iff] at hpart
  exact hpart.1.1.1

theorem takeWhile_digits_append (h : Ended rest) :
    (cs ++ rest).takeWhile Char.isDigit = cs.takeWhile Char.isDigit := by
  induction cs with
  | nil =>
    cases rest with
    | nil => rfl
    | cons c rest =>
      have hc := h.not_digit c rfl
      simp [List.takeWhile, hc]
  | cons c cs ih =>
    rw [List.cons_append, List.takeWhile_cons, List.takeWhile_cons, ih]

theorem dropWhile_digits_append (h : Ended rest) :
    (cs ++ rest).dropWhile Char.isDigit = cs.dropWhile Char.isDigit ++ rest := by
  induction cs with
  | nil =>
    cases rest with
    | nil => rfl
    | cons c rest =>
      have hc := h.not_digit c rfl
      simp [List.dropWhile, hc]
  | cons c cs ih =>
    rw [List.cons_append, List.dropWhile_cons, List.dropWhile_cons, ih]
    split <;> rfl

theorem scanPlaces?_cons {c : Char} (h : c ≠ '.') : scanPlaces? (c :: cs) = some ([], c :: cs) := by
  unfold scanPlaces?
  split
  · next heq => exact absurd (List.cons.inj heq).1 h
  · rfl

theorem scanPlaces?_append {places : List Char} (hrest : Ended rest)
    (h : scanPlaces? cs = some (places, r)) :
    scanPlaces? (cs ++ rest) = some (places, r ++ rest) := by
  cases cs with
  | nil =>
    cases h
    cases rest with
    | nil => rfl
    | cons c rest =>
      refine scanPlaces?_cons ?_
      rintro rfl
      exact absurd (hrest '.' rfl) (by decide)
  | cons c cs =>
    by_cases hc : c = '.'
    · subst hc
      simp only [scanPlaces?, List.cons_append] at h ⊢
      rw [takeWhile_digits_append hrest, dropWhile_digits_append hrest]
      split at h
      · cases h
      next hdigits =>
      cases h
      rw [if_neg hdigits]
    · rw [scanPlaces?_cons hc] at h
      cases h
      exact scanPlaces?_cons hc

theorem splitSign_append (hcs : cs ≠ []) :
    Binary64.splitSign (cs ++ rest)
      = ((Binary64.splitSign cs).1, (Binary64.splitSign cs).2 ++ rest) := by
  cases cs with
  | nil => exact absurd rfl hcs
  | cons c cs =>
    by_cases hminus : c = '-'
    · subst hminus
      rfl
    by_cases hplus : c = '+'
    · subst hplus
      rfl
    have hself (l : List Char) : Binary64.splitSign (c :: l) = (false, c :: l) := by
      unfold Binary64.splitSign
      split
      · next heq => exact absurd (List.cons.inj heq).1 hminus
      · next heq => exact absurd (List.cons.inj heq).1 hplus
      · rfl
    rw [List.cons_append, hself, hself]
    rfl

theorem scanExponent?_append {e : Option (Bool × List Char)} (hrest : Ended rest)
    (h : scanExponent? cs = some (e, r)) :
    scanExponent? (cs ++ rest) = some (e, r ++ rest) := by
  cases cs with
  | nil =>
    cases h
    cases rest with
    | nil => rfl
    | cons c rest =>
      have hpart := hrest c rfl
      have hc : ¬ (c = 'e' ∨ c = 'E') := by
        rintro (rfl | rfl) <;> exact absurd hpart (by decide)
      simp only [scanExponent?, List.nil_append, if_neg hc]
  | cons c cs =>
    by_cases hc : c = 'e' ∨ c = 'E'
    · simp only [scanExponent?, List.cons_append, if_pos hc] at h ⊢
      split at h
      · cases h
      next hdigits =>
      have hcs : cs ≠ [] := by
        rintro rfl
        exact hdigits rfl
      cases h
      rw [splitSign_append hcs]
      simp only [takeWhile_digits_append hrest, dropWhile_digits_append hrest]
      rw [if_neg hdigits]
    · simp only [scanExponent?, List.cons_append, if_neg hc] at h ⊢
      cases h
      rfl

/-- Reads a numeral after its sign. -/
def scanUnsigned? (negative : Bool) (cs : List Char) : Option (Numeral × List Char) :=
  let whole := cs.takeWhile Char.isDigit
  if whole.isEmpty || (whole.head? = some '0' && whole.length ≠ 1) then none
  else do
    let (places, rest) ← scanPlaces? (cs.dropWhile Char.isDigit)
    let (exponent, rest) ← scanExponent? rest
    return ({ negative, whole, places, exponent }, rest)

theorem scan?_minus (cs : List Char) : scan? ('-' :: cs) = scanUnsigned? true cs := rfl

theorem scan?_of_ne (h : cs.head? ≠ some '-') : scan? cs = scanUnsigned? false cs := by
  unfold scan?
  split
  next negative cs' hsign =>
  split at hsign
  · exact absurd rfl h
  · cases hsign
    rfl

theorem scanUnsigned?_append {negative : Bool} {t : Numeral} (hrest : Ended rest)
    (h : scanUnsigned? negative cs = some (t, r)) :
    scanUnsigned? negative (cs ++ rest) = some (t, r ++ rest) := by
  simp only [scanUnsigned?, takeWhile_digits_append hrest, dropWhile_digits_append hrest] at h ⊢
  split at h
  · cases h
  next hwhole =>
  rw [if_neg hwhole]
  obtain ⟨⟨places, r₁⟩, hplaces, h⟩ := Option.bind_eq_some_iff.mp h
  obtain ⟨⟨exponent, r₂⟩, hexponent, h⟩ := Option.bind_eq_some_iff.mp h
  cases h
  rw [scanPlaces?_append hrest hplaces, Option.bind_eq_bind, Option.bind_some,
    scanExponent?_append hrest hexponent]
  rfl

/-- A numeral is read as it is, whatever follows it. -/
theorem scan?_append {t : Numeral} (hrest : Ended rest) (h : scan? cs = some (t, r)) :
    scan? (cs ++ rest) = some (t, r ++ rest) := by
  cases cs with
  | nil => cases h
  | cons c cs =>
    by_cases hc : c = '-'
    · subst hc
      rw [scan?_minus] at h
      rw [List.cons_append, scan?_minus]
      exact scanUnsigned?_append hrest h
    · have hne (l : List Char) : (c :: l).head? ≠ some '-' := fun heq => hc (Option.some.inj heq)
      rw [scan?_of_ne (hne _)] at h
      rw [List.cons_append, scan?_of_ne (hne _)]
      exact scanUnsigned?_append hrest h

/-- A numeral starts with a minus or a digit. -/
theorem head_of_scan? {t : Numeral} (h : scan? cs = some (t, r)) :
    ∃ c rest, cs = c :: rest ∧ (c = '-' ∨ c.isDigit = true) := by
  cases cs with
  | nil => cases h
  | cons c cs =>
    refine ⟨c, cs, rfl, ?_⟩
    by_cases hc : c = '-'
    · exact .inl hc
    · have hne : (c :: cs).head? ≠ some '-' := fun heq => hc (Option.some.inj heq)
      rw [scan?_of_ne hne] at h
      cases hdigit : c.isDigit with
      | true => exact .inr rfl
      | false => simp [scanUnsigned?, List.takeWhile, hdigit] at h

def isMark (c : Char) : Bool := isPart c || c == '-' || c == '+'

/-- The text starts with characters of a numeral, and `r` is what follows them. -/
def Consumed (cs r : List Char) : Prop := ∃ front, cs = front ++ r ∧ ∀ c ∈ front, isMark c = true

theorem Consumed.refl (cs : List Char) : Consumed cs cs := ⟨[], rfl, nofun⟩

theorem Consumed.trans {cs₁ cs₂ cs₃ : List Char} (h₁ : Consumed cs₁ cs₂)
    (h₂ : Consumed cs₂ cs₃) : Consumed cs₁ cs₃ := by
  obtain ⟨front₁, rfl, hfront₁⟩ := h₁
  obtain ⟨front₂, rfl, hfront₂⟩ := h₂
  refine ⟨front₁ ++ front₂, (List.append_assoc ..).symm, fun c hc => ?_⟩
  exact (List.mem_append.mp hc).elim (hfront₁ c) (hfront₂ c)

theorem Consumed.cons {c : Char} (hc : isMark c = true) (h : Consumed cs r) :
    Consumed (c :: cs) r := by
  obtain ⟨front, rfl, hfront⟩ := h
  exact ⟨c :: front, rfl, List.forall_mem_cons.mpr ⟨hc, hfront⟩⟩

theorem consumed_digits (cs : List Char) : Consumed cs (cs.dropWhile Char.isDigit) := by
  refine ⟨cs.takeWhile Char.isDigit, List.takeWhile_append_dropWhile.symm, fun c hc => ?_⟩
  have hdigit : c.isDigit = true := List.mem_takeWhile_imp hc
  simp [isMark, isPart, hdigit]

theorem consumed_splitSign (cs : List Char) : Consumed cs (Binary64.splitSign cs).2 := by
  unfold Binary64.splitSign
  split
  · exact .cons (by decide) (.refl _)
  · exact .cons (by decide) (.refl _)
  · exact .refl _

theorem consumed_scanPlaces? {places : List Char} (h : scanPlaces? cs = some (places, r)) :
    Consumed cs r := by
  unfold scanPlaces? at h
  split at h
  · dsimp only at h
    split at h
    · cases h
    · cases h
      exact .cons (by decide) (consumed_digits _)
  · cases h
    exact .refl _

theorem consumed_scanExponent? {e : Option (Bool × List Char)}
    (h : scanExponent? cs = some (e, r)) : Consumed cs r := by
  unfold scanExponent? at h
  split at h
  · cases h
    exact .refl _
  next c cs' =>
  split at h
  · next hc =>
    have hmark : isMark c = true := by
      rcases hc with rfl | rfl <;> decide
    dsimp only at h
    split at h
    · cases h
    · cases h
      exact .cons hmark ((consumed_splitSign cs').trans (consumed_digits _))
  · cases h
    exact .refl _

theorem consumed_scanUnsigned? {negative : Bool} {t : Numeral}
    (h : scanUnsigned? negative cs = some (t, r)) : Consumed cs r := by
  simp only [scanUnsigned?] at h
  split at h
  · cases h
  obtain ⟨⟨places, r₁⟩, hplaces, h⟩ := Option.bind_eq_some_iff.mp h
  obtain ⟨⟨exponent, r₂⟩, hexponent, h⟩ := Option.bind_eq_some_iff.mp h
  cases h
  have hwhole := consumed_digits cs
  exact (hwhole.trans (consumed_scanPlaces? hplaces)).trans (consumed_scanExponent? hexponent)

theorem consumed_scan? {t : Numeral} (h : scan? cs = some (t, r)) : Consumed cs r := by
  cases cs with
  | nil => cases h
  | cons c cs =>
    by_cases hc : c = '-'
    · subst hc
      rw [scan?_minus] at h
      exact .cons (by decide) (consumed_scanUnsigned? h)
    · have hne : (c :: cs).head? ≠ some '-' := fun heq => hc (Option.some.inj heq)
      rw [scan?_of_ne hne] at h
      exact consumed_scanUnsigned? h

end Numeral

/-- What is written for a number that reads back is made of the characters of numerals. -/
theorem Number.ReadsBack.isMark {n : Number} (h : n.ReadsBack) :
    ∀ c ∈ n.write, Numeral.isMark c = true := by
  obtain ⟨t, ht, -⟩ := h
  obtain ⟨front, hwrite, hfront⟩ := Numeral.consumed_scan? ht
  rw [hwrite, List.append_nil]
  exact hfront

section Integers

theorem natOfDigits_digits (n : Nat) : natOfDigits 0 (digits n) = n :=
  Nat.ofDigitChars_ten_toDigits

theorem isDigit_of_mem_digits {n : Nat} {c : Char} (h : c ∈ digits n) : c.isDigit = true :=
  Nat.isDigit_of_mem_toDigits (by decide) (by decide) h

theorem digits_ne_nil (n : Nat) : digits n ≠ [] := Nat.toDigits_ne_nil

/-- Only zero is written with a leading zero. -/
theorem head_digits {n : Nat} (h : (digits n).head? = some '0') : n = 0 := by
  induction n using Nat.strongRecOn with
  | ind n ih =>
    unfold digits at h
    rw [Nat.toDigits_eq_if (by decide)] at h
    split at h
    · next hlt =>
      have hdigit : ∀ d < 10, d.digitChar = '0' → d = 0 := by decide
      exact hdigit n hlt (Option.some.inj h)
    · next hle =>
      rw [List.head?_append, Option.or_of_isSome (by simp [Nat.toDigits_ne_nil])] at h
      have hzero := ih (n / 10) (by omega) h
      omega

theorem le_natOfDigits (n : Nat) (cs : List Char) : n ≤ natOfDigits n cs := by
  induction cs generalizing n with
  | nil => exact Nat.le_refl n
  | cons c cs ih =>
    have hnext := ih (10 * n + (c.toNat - '0'.toNat))
    change n ≤ natOfDigits (10 * n + (c.toNat - '0'.toNat)) cs
    omega

theorem absorb_of_lt {n : Nat} {cs : List Char} (h : natOfDigits n cs < 0x10000000000000000) :
    Numeral.absorb n cs = (natOfDigits n cs, []) := by
  induction cs generalizing n with
  | nil => rfl
  | cons c cs ih =>
    change natOfDigits (natOfDigits n [c]) cs < _ at h
    have hle := le_natOfDigits (natOfDigits n [c]) cs
    rw [Numeral.absorb]
    split
    · exact ih h
    · omega

theorem scanUnsigned?_digits (negative : Bool) (n : Nat) :
    Numeral.scanUnsigned? negative (digits n) = some (⟨negative, digits n, [], none⟩, []) := by
  have htake : (digits n).takeWhile Char.isDigit = digits n :=
    List.takeWhile_eq_self_iff.mpr fun c hc => isDigit_of_mem_digits hc
  have hdrop : (digits n).dropWhile Char.isDigit = [] :=
    List.dropWhile_eq_nil_iff.mpr fun c hc => isDigit_of_mem_digits hc
  have hzero : (digits n).head? = some '0' → (digits n).length = 1 := by
    intro h
    rw [head_digits h]
    rfl
  have hwhole : ¬ ((digits n).isEmpty || (decide ((digits n).head? = some '0')
      && decide ((digits n).length ≠ 1))) = true := by
    simp [digits_ne_nil]
    exact hzero
  unfold Numeral.scanUnsigned?
  simp only [htake, hdrop]
  rw [if_neg hwhole]
  rfl

theorem toNumber?_digits {negative : Bool} {n : Nat} (h : n < 0x10000000000000000) :
    Numeral.toNumber? ⟨negative, digits n, [], none⟩ = Numeral.integer negative n := by
  have habsorb : Numeral.absorb 0 (digits n) = (n, []) := by
    have hlt : natOfDigits 0 (digits n) < 0x10000000000000000 := by
      rw [natOfDigits_digits]
      exact h
    rw [absorb_of_lt hlt, natOfDigits_digits]
  unfold Numeral.toNumber?
  rw [habsorb]
  rfl

theorem readsBack_unsigned (n : UInt64) : (Number.unsigned n).ReadsBack := by
  refine ⟨⟨false, digits n.toNat, [], none⟩, ?_, ?_⟩
  · have hhead : (digits n.toNat).head? ≠ some '-' := by
      intro h
      have hdigit := isDigit_of_mem_digits (List.mem_of_mem_head? h)
      exact absurd hdigit (by decide)
    change Numeral.scan? (digits n.toNat) = _
    rw [Numeral.scan?_of_ne hhead, scanUnsigned?_digits]
  · rw [toNumber?_digits n.toNat_lt]
    change some (Number.unsigned (UInt64.ofNat n.toNat)) = _
    rw [UInt64.ofNat_toNat]

theorem readsBack_signed {n : Int64} (h : n.toInt < 0) : (Number.signed n).ReadsBack := by
  have hle := Int64.le_toInt n
  refine ⟨⟨true, digits n.toInt.natAbs, [], none⟩, ?_, ?_⟩
  · have hneg : n < 0 := Int64.lt_iff_toInt_lt.mpr h
    change Numeral.scan? (if n < 0 then _ else _) = _
    rw [if_pos hneg, Numeral.scan?_minus, scanUnsigned?_digits]
  · rw [toNumber?_digits (by omega)]
    have hback : Int64.ofInt (-(n.toInt.natAbs : Int)) = n := by
      rw [show -(n.toInt.natAbs : Int) = n.toInt by omega, Int64.ofInt_toInt]
    unfold Numeral.integer
    rw [if_pos rfl, if_pos (by omega), hback]

theorem readsBack_ofSigned (n : Int64) : (Number.ofSigned n).ReadsBack := by
  unfold Number.ofSigned
  split
  · exact readsBack_unsigned _
  · next h =>
    refine readsBack_signed ?_
    have hle := mt Int64.le_iff_toInt_le.mpr h
    exact Int.not_le.mp hle

end Integers

end TablePipeline.Json
