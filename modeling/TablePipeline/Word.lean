/-!
# Integers of 64 bits

Which integers a signed or an unsigned word of 64 bits holds. `signed?` and `unsigned?` accept
exactly the integers in range and keep them as they are.
-/

namespace TablePipeline.Word

/-- The signed word of an integer, if it is in range. -/
def signed? (n : Int) : Option Int64 :=
  if -0x8000000000000000 ≤ n ∧ n < 0x8000000000000000 then some (Int64.ofInt n) else none

/-- The unsigned word of an integer, if it is in range. -/
def unsigned? (n : Int) : Option UInt64 :=
  if 0 ≤ n ∧ n < 0x10000000000000000 then some (UInt64.ofNat n.toNat) else none

theorem signed?_eq_some_iff {n : Int} {w : Int64} : signed? n = some w ↔ w.toInt = n := by
  unfold signed?
  constructor
  · intro h
    split at h
    · next hn =>
      obtain rfl := Option.some.inj h
      exact Int64.toInt_ofInt_of_le (by simpa using hn.1) (by simpa using hn.2)
    · cases h
  · rintro rfl
    have h₁ := Int64.le_toInt w
    have h₂ := Int64.toInt_lt w
    rw [if_pos ⟨by simpa using h₁, by simpa using h₂⟩, Int64.ofInt_toInt]

theorem signed?_toInt (w : Int64) : signed? w.toInt = some w := signed?_eq_some_iff.mpr rfl

theorem unsigned?_eq_some_iff {n : Int} {w : UInt64} :
    unsigned? n = some w ↔ (w.toNat : Int) = n := by
  unfold unsigned?
  have hw := UInt64.toNat_lt w
  constructor
  · intro h
    split at h
    · next hn =>
      obtain rfl := Option.some.inj h
      rw [UInt64.toNat_ofNat', Nat.mod_eq_of_lt (by omega)]
      omega
    · cases h
  · rintro rfl
    rw [if_pos ⟨by omega, by omega⟩]
    simp

end TablePipeline.Word
