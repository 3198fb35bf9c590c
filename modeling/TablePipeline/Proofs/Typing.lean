import TablePipeline.Proofs.Outcome
import TablePipeline.Expr
/-!
# Typed expressions

A `Signature` gives types to columns, and `Expr.HasType` types the expressions over them. A missing
value has every type. On a row that fits the signature, an expression that has a type comes to a
value of that type, unless it divides by zero (`Expr.HasType.onRow`).
-/

namespace TablePipeline

/-- The types of values. -/
inductive CellType
  | number
  | text
  | boolean
deriving DecidableEq, Repr

/-- The type of a value, if it is not missing. -/
def Value.type? : Value → Option CellType
  | .missing => none
  | .bool _ => some .boolean
  | .int _ | .float _ => some .number
  | .text _ => some .text

/-- The value is missing or has the type. -/
def Value.OfType (type : CellType) (v : Value) : Prop := v = .missing ∨ v.type? = some type

instance (type : CellType) (v : Value) : Decidable (v.OfType type) :=
  inferInstanceAs (Decidable (_ ∨ _))

/-- The types of some columns. -/
abbrev Signature := String → Option CellType

/-- The row has all the columns of the signature, with values of their types. -/
def Row.Fits (signature : Signature) (row : Row) : Prop :=
  ∀ column type, signature column = some type → ∃ v, row.get? column = some v ∧ v.OfType type

namespace Expr

/-- The expression has the type. An aggregate has none. -/
inductive HasType (signature : Signature) : Expr → CellType → Prop
  | literal {v : Value} {type : CellType} (value : v.OfType type) :
      HasType signature (.literal v) type
  | column {name : String} {type : CellType} (declared : signature name = some type) :
      HasType signature (.column name) type
  | compare {op : CompareOp} {left right : Expr} {type : CellType}
      (left_hasType : HasType signature left type) (right_hasType : HasType signature right type) :
      HasType signature (.compare op left right) .boolean
  | arithmetic {op : ArithmeticOp} {left right : Expr}
      (left_hasType : HasType signature left .number)
      (right_hasType : HasType signature right .number) :
      HasType signature (.arithmetic op left right) .number

/-- There is a division or a remainder in the expression. -/
def divides : Expr → Bool
  | .literal _ | .column _ | .aggregate .. => false
  | .compare _ left right => left.divides || right.divides
  | .arithmetic op left right => op.divides || left.divides || right.divides

end Expr

open Outcome

/-- The computation comes to a value of the type, or to a division by zero if it may divide. -/
def ComesTo (type : CellType) (mayDivide : Bool) (x : Except Error Value) : Prop :=
  (∃ v, x = .ok v ∧ v.OfType type) ∨ x = .error .divisionByZero ∧ mayDivide = true

namespace ComesTo

variable {type : CellType} {mayDivide : Bool} {x : Except Error Value}

theorem ok {v : Value} (h : v.OfType type) : ComesTo type mayDivide (.ok v) := .inl ⟨v, rfl, h⟩

theorem division (h : mayDivide = true) : ComesTo type mayDivide (.error .divisionByZero) :=
  .inr ⟨rfl, h⟩

theorem mono {wider : Bool} (h : ComesTo type mayDivide x) (hle : mayDivide = true → wider = true) :
    ComesTo type wider x :=
  h.imp_right fun ⟨hx, hdivide⟩ => ⟨hx, hle hdivide⟩

theorem bind {type' : CellType} {f : Value → Except Error Value} (hx : ComesTo type mayDivide x)
    (hf : ∀ v, v.OfType type → ComesTo type' mayDivide (f v)) :
    ComesTo type' mayDivide (x >>= f) := by
  rcases hx with ⟨v, rfl, hv⟩ | ⟨rfl, hdivide⟩
  · exact hf v hv
  · exact division hdivide

end ComesTo

section Values

variable {a b : Value} {type : CellType}

/-- Values of one type have an order, or none. -/
theorem Value.order?_isOk (context : String) (h : a.type? = b.type?) :
    ∃ ord, a.order? context b = .ok ord := by
  cases a <;> cases b <;> first | exact ⟨_, rfl⟩ | cases h

theorem Value.isMissing_iff : a.isMissing = true ↔ a = .missing := by
  cases a <;> simp [isMissing]

theorem CompareOp.apply_isOk (op : CompareOp) (ha : a.OfType type) (hb : b.OfType type) :
    ∃ holds, op.apply a b = .ok holds := by
  unfold CompareOp.apply
  split
  · cases op <;> exact ⟨_, rfl⟩
  next h =>
  simp only [Bool.or_eq_true, Value.isMissing_iff, not_or] at h
  obtain ⟨ord, hord⟩ := Value.order?_isOk "comparison"
    ((ha.resolve_left h.1).trans (hb.resolve_left h.2).symm)
  rw [hord]
  cases ord <;> exact ⟨_, rfl⟩

theorem Value.isSome_toFloat? (h : a.type? = some .number) : ∃ x, a.toFloat? = some x := by
  cases a <;> first | exact ⟨_, rfl⟩ | cases h

theorem ArithmeticOp.applyFloats_comesTo (op : ArithmeticOp) (ha : a.type? = some .number)
    (hb : b.type? = some .number) : ComesTo .number op.divides (op.applyFloats a b) := by
  obtain ⟨x, hx⟩ := Value.isSome_toFloat? ha
  obtain ⟨y, hy⟩ := Value.isSome_toFloat? hb
  unfold ArithmeticOp.applyFloats
  rw [hx, hy]
  dsimp only
  split
  · next h => exact .division (Bool.and_eq_true_iff.mp h).1
  · exact .ok (.inr rfl)

theorem ArithmeticOp.applyInts_comesTo (op : ArithmeticOp) (m n : Int64) :
    ComesTo .number op.divides (op.applyInts m n) := by
  unfold ArithmeticOp.applyInts
  split
  · next h => exact .division (by rw [h.1]; rfl)
  split
  · exact applyFloats_comesTo op rfl rfl
  split
  · exact .ok (.inr rfl)
  · exact applyFloats_comesTo op rfl rfl

theorem ArithmeticOp.apply_comesTo (op : ArithmeticOp) (ha : a.OfType .number)
    (hb : b.OfType .number) : ComesTo .number op.divides (op.apply a b) := by
  unfold ArithmeticOp.apply
  split
  · exact .ok (.inl rfl)
  next h =>
  simp only [Bool.or_eq_true, Value.isMissing_iff, not_or] at h
  split
  · exact applyInts_comesTo op _ _
  · exact applyFloats_comesTo op (ha.resolve_left h.1) (hb.resolve_left h.2)

end Values

namespace Expr

variable {signature : Signature} {row : Row} {e : Expr} {type : CellType}

theorem HasType.comesTo (h : e.HasType signature type) (hrow : row.Fits signature) :
    ComesTo type e.divides (e.onRow row) := by
  induction h with
  | literal value => exact .ok value
  | @column name type declared =>
    obtain ⟨v, hv, htype⟩ := hrow name type declared
    have hcell : row.cell name = .ok v := by rw [Row.cell, hv]
    exact .inl ⟨v, hcell, htype⟩
  | @compare op left right type _ _ ihl ihr =>
    refine (ihl.mono fun h => by simp [divides, h]).bind fun a ha => ?_
    refine (ihr.mono fun h => by simp [divides, h]).bind fun b hb => ?_
    obtain ⟨holds, hholds⟩ := op.apply_isOk ha hb
    rw [hholds]
    exact .ok (.inr rfl)
  | @arithmetic op left right _ _ ihl ihr =>
    refine (ihl.mono fun h => by simp [divides, h]).bind fun a ha => ?_
    refine (ihr.mono fun h => by simp [divides, h]).bind fun b hb => ?_
    exact (op.apply_comesTo ha hb).mono fun h => by simp [divides, h]

/-- A comparison that has a value is true or false. -/
theorem bool_of_onRow_compare {op : CompareOp} {left right : Expr} {v : Value}
    (h : (compare op left right).onRow row = .ok v) : ∃ holds, v = .bool holds := by
  obtain ⟨a, -, h⟩ := bind_eq_ok.mp h
  obtain ⟨b, -, h⟩ := bind_eq_ok.mp h
  obtain ⟨holds, -, h⟩ := bind_eq_ok.mp h
  exact ⟨holds, (pure_eq_ok.mp h).symm⟩

/-- On a row that fits, an expression that has a type comes to a value of that type, or else it has
a division in it and divides by zero. It misses no column and finds no types that do not go
together, and a comparison is never missing. -/
theorem HasType.onRow (h : e.HasType signature type) (hrow : row.Fits signature) :
    ((∃ v, e.onRow row = .ok v ∧ v.OfType type) ∨
      e.onRow row = .error .divisionByZero ∧ e.divides = true) ∧
    (∀ column, e.onRow row ≠ .error (.unknownColumn column)) ∧
    (∀ context left right, e.onRow row ≠ .error (.typeMismatch context left right)) ∧
    ∀ op left right v, e = .compare op left right → e.onRow row = .ok v → v ≠ .missing := by
  have hcomes := h.comesTo hrow
  have honly (cause : Error) (herror : e.onRow row = .error cause) : cause = .divisionByZero := by
    rcases hcomes with ⟨v, hok, -⟩ | ⟨hdivision, -⟩
    · rw [hok] at herror
      cases herror
    · rw [hdivision] at herror
      exact (Except.error.inj herror).symm
  refine ⟨hcomes, fun column hunknown => ?_, fun context left right hmismatch => ?_, ?_⟩
  · cases honly _ hunknown
  · cases honly _ hmismatch
  · rintro op left right v rfl hok rfl
    obtain ⟨holds, hbool⟩ := bool_of_onRow_compare hok
    cases hbool

/-- A quotient by a column, compared with a number. -/
def ratioBelow : Expr :=
  .compare .lt (.arithmetic .div (.literal (.int 10)) (.column "parts")) (.literal (.int 3))

/-- The signature with one column of numbers. -/
def partsOnly : Signature := fun column => if column = "parts" then some .number else none

/-- A row with a number of parts. -/
def rowOfParts (parts : Value) : Row := NameMap.insert (.ofList [("name", .text "x")]) "parts" parts

theorem rowOfParts_fits {parts : Value} (h : parts.OfType .number) :
    (rowOfParts parts).Fits partsOnly := by
  intro column type hcolumn
  obtain ⟨rfl, htype⟩ := Option.ite_none_right_eq_some.mp hcolumn
  cases htype
  exact ⟨parts, by rw [rowOfParts, NameMap.get?_insert, if_pos rfl], h⟩

/-- Four parts make a quotient, no parts a division by zero, and a missing number of parts a
comparison that does not hold. -/
theorem ratioBelow_onRow :
    ratioBelow.HasType partsOnly .boolean ∧
    ((rowOfParts (.int 4)).Fits partsOnly ∧
      ratioBelow.onRow (rowOfParts (.int 4)) = .ok (.bool true)) ∧
    ((rowOfParts (.int 0)).Fits partsOnly ∧
      ratioBelow.onRow (rowOfParts (.int 0)) = .error .divisionByZero ∧ ratioBelow.divides = true) ∧
    (rowOfParts .missing).Fits partsOnly ∧
      ratioBelow.onRow (rowOfParts .missing) = .ok (.bool false) := by
  have htype : ratioBelow.HasType partsOnly .boolean :=
    .compare (.arithmetic (.literal (by decide)) (.column rfl)) (.literal (by decide))
  have hzero : (rowOfParts (.int 0)).Fits partsOnly := rowOfParts_fits (by decide)
  refine ⟨htype, ⟨rowOfParts_fits (by decide), rfl⟩, ⟨hzero, ?_⟩, rowOfParts_fits (by decide), rfl⟩
  rcases (htype.onRow hzero).1 with ⟨v, hv, -⟩ | hdivision
  · cases hv
  · exact hdivision

end Expr

end TablePipeline
