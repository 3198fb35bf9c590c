import TablePipeline.Binary64
import TablePipeline.NameMap
/-!
# JSON values

A number is kept as a 64-bit integer where it is written as one that fits, and as a double
otherwise. An object lists its members in the order in which they are written.
-/

namespace TablePipeline

namespace Json

/-- A number. A negative integer is `signed`, any other one `unsigned`. -/
inductive Number
  | unsigned (n : UInt64)
  | signed (n : Int64)
  | float (x : Binary64.Finite)
deriving DecidableEq

/-- The signed integer that a number is held as, if it is held as one in range. -/
def Number.toSigned? : Number → Option Int64
  | .unsigned n => if n.toNat < 0x8000000000000000 then some (Int64.ofNat n.toNat) else none
  | .signed n => some n
  | .float _ => none

/-- The number of a double, if it is finite. -/
def Number.ofFloat? (x : Float) : Option Number := (Binary64.Finite.ofFloat? x).map .float

/-- The number of a signed integer. -/
def Number.ofSigned (n : Int64) : Number :=
  if 0 ≤ n then .unsigned n.toUInt64 else .signed n

theorem Number.toSigned?_ofSigned (n : Int64) : (ofSigned n).toSigned? = some n := by
  unfold ofSigned
  split
  · next h =>
    have hlt := Int64.toInt_lt n
    have hnonneg : 0 ≤ n.toInt := Int64.le_iff_toInt_le.mp h
    have hnat : n.toUInt64.toNat = n.toInt.toNat := Int64.toNat_toUInt64_of_le h
    have hback : Int64.ofNat n.toInt.toNat = n := by
      rw [← Int64.toInt_inj, Int64.toInt_ofNat_of_lt (by omega), Int.toNat_of_nonneg hnonneg]
    rw [toSigned?, hnat, if_pos (by omega), hback]
  · rfl

theorem Number.toSigned?_unsigned_of_lt {n : UInt64} (h : n.toNat < 0x8000000000000000) :
    ∃ i : Int64, (unsigned n).toSigned? = some i ∧ i.toInt = n.toNat :=
  ⟨Int64.ofNat n.toNat, if_pos h, Int64.toInt_ofNat_of_lt (by omega)⟩

theorem Number.toSigned?_unsigned_of_le {n : UInt64} (h : 0x8000000000000000 ≤ n.toNat) :
    (unsigned n).toSigned? = none :=
  if_neg (by omega)

end Json

/-- A JSON value. -/
inductive Json
  | null
  | bool (b : Bool)
  | number (n : Json.Number)
  | string (s : String)
  | array (items : List Json)
  | object (members : List (String × Json))

instance : Inhabited Json := ⟨.null⟩

namespace Json

/-- The number of a natural below `2^64`. -/
def ofNat (n : Nat) : Json := .number (.unsigned (UInt64.ofNat n))

/-- A finite double is a number. JSON has no other doubles: they become null. -/
def ofFloat (x : Float) : Json :=
  match Number.ofFloat? x with
  | some n => .number n
  | none => .null

/-- The object of some members, sorted by key. -/
def record (members : List (String × Json)) : Json := .object (sortByName members)

end Json

end TablePipeline
