import CsdWorker.Arithmetic
import CsdWorker.DecimalCodec
import CsdWorker.Evaluation

/-! # Values of operands

The number or the string that an operand stands for. It has one only if its evaluation gives the same whatever the
indeterminate members hold.
-/

namespace CsdWorker

open Memory

set_option autoImplicit false

inductive Value where
  | number (x : Number)
  | string (s : Bytes)
  deriving DecidableEq, Repr

namespace Value

def type : Value → KetiValueType
  | number x => x.kind.type
  | string _ => .string

/-- A comparison of two values of one type. -/
def compareWith (int : Int → Int → Bool) (text : Bytes → Bytes → Bool) : Value → Value → Bool
  | number x, number y => int x.number y.number
  | string s, string t => text s t
  | _, _ => false

end Value

def KValue.value? (v : KValue) : Option Value :=
  match v.type_ with
  | .string => some (.string v.string_)
  | _ => v.number?.map .number

section Value
variable {v : KValue}

theorem value?_eq_number_iff {x : Number} : v.value? = some (.number x) ↔ v.number? = some x := by
  rw [KValue.value?]
  split
  · rename_i hType
    simp [KValue.number?, hType]
  · simp

theorem value?_eq_string_iff {s : Bytes} : v.value? = some (.string s) ↔ v.type_ = .string ∧ v.string_ = s := by
  rw [KValue.value?]
  split
  · rename_i hType
    simp [hType]
  · rename_i hType
    simpa using fun h => absurd h hType

theorem type_of_value? {x : Value} (h : v.value? = some x) : v.type_ = x.type := by
  cases x with
  | number x => exact (members_of_number? (value?_eq_number_iff.mp h)).1
  | string s => exact (value?_eq_string_iff.mp h).1

end Value

/-- The operand's value is the number `x`, whatever the indeterminate members hold. -/
def HasNumber (row : Mem) (offsets : List Int) (schemaInfo : SchemaInfo) (operand : Operand) (x : Number) : Prop :=
  ∀ u : KValue, ∃ v, (calculOperandValue u row operand offsets none).run' schemaInfo = some v ∧ v.number? = some x

/-- The operand's value is `x`, whatever the indeterminate members hold. -/
def HasValue (row : Mem) (offsets : List Int) (schemaInfo : SchemaInfo) (operand : Operand) (x : Value) : Prop :=
  ∀ u : KValue, ∃ v, (calculOperandValue u row operand offsets none).run' schemaInfo = some v ∧ v.value? = some x

section Operands
variable {row : Mem} {offsets : List Int} {s : SchemaInfo} {operand : Operand}

theorem hasValue_number_iff {n : Number} :
    HasValue row offsets s operand (.number n) ↔ HasNumber row offsets s operand n := by
  simp only [HasValue, HasNumber, value?_eq_number_iff]

/-- One token of an operand is evaluated like an operand of that token alone. -/
theorem calculOperandValue_token (u : KValue) (row : Mem) (offsets : List Int) {index : Nat} {type : KetiValueType}
    {value : Bytes} (hType : operand.types[index]? = some type) (hValue : operand.values[index]? = some value) :
    calculOperandValue u row operand offsets (some index) =
      calculOperandValue u row ⟨[type], [value]⟩ offsets none := by
  simp only [calculOperandValue, getColumnValue, getLiteralValue, hType, hValue]
  rfl

theorem token_of_run' {u v : KValue} {index : Nat}
    (h : (calculOperandValue u row operand offsets (some index)).run' s = some v) :
    ∃ type value, operand.types[index]? = some type ∧ operand.values[index]? = some value := by
  cases hType : operand.types[index]? with
  | none =>
    rw [calculOperandValue, hType] at h
    cases h
  | some type =>
    cases hValue : operand.values[index]? with
    | none =>
      have hColumn : (getColumnValue u row operand offsets index).run' s = none := by
        rw [getColumnValue, hValue]
        rfl
      have hLiteral : (getLiteralValue u operand index).run' s = none := by
        rw [getLiteralValue, hType, hValue]
        rfl
      rw [calculOperandValue, hType] at h
      change (if type = .column then _ else _ : Eval KValue).run' s = some v at h
      split at h
      · rw [hColumn] at h
        cases h
      · rw [hLiteral] at h
        cases h
    | some value => exact ⟨type, value, rfl, rfl⟩

theorem calculOperandValue_single (u : KValue) (row : Mem) (offsets : List Int) (h : operand.types.length = 1) :
    calculOperandValue u row operand offsets none = calculOperandValue u row operand offsets (some 0) := by
  simp [calculOperandValue, h]

theorem hasNumber_newDecimal {name : Bytes} {n : Int} (start : Nat)
    (hColumn : DecimalCodec.DecimalColumnAt s ⟨[.column], [name]⟩ offsets 0 start)
    (hValue : newDecimalValue (ofBytes (read row start 7)) = n) :
    HasNumber row offsets s ⟨[.column], [name]⟩ ⟨.decimal, n, 1⟩ := by
  intro u
  have hRun := DecimalCodec.getColumnValue_newDecimal u row hColumn
  refine ⟨_, run'_eq_some_iff.mpr ⟨s, hRun⟩, ?_⟩
  rw [← hValue]
  rfl

end Operands

section Literals

/-- The number or string that a literal of type `type` stands for. -/
def literalValue? (type : KetiValueType) (text : Bytes) : Option Value :=
  match type with
  | .int8 | .int16 | .int32 | .date => (stoi text).map fun n => .number ⟨.int32, n, 0⟩
  | .int64 => (stoll text).map fun n => .number ⟨.int64, n, 0⟩
  | .decimal => (stod text).map fun x => .number ⟨.decimal, (x * 100).toInt64.toInt, 1⟩
  | .string => some (.string text)
  | _ => none

structure Literal where
  type : KetiValueType
  text : Bytes
  value : Value
  reads : literalValue? type text = some value

namespace Literal

def operand (literal : Literal) : Operand := ⟨[literal.type], [literal.text]⟩

end Literal

theorem getLiteralValue_run (u : KValue) (s : SchemaInfo) {type : KetiValueType} {text : Bytes} {x : Value}
    (h : literalValue? type text = some x) :
    ∃ v, (getLiteralValue u ⟨[type], [text]⟩ 0).run s = some (v, s) ∧ v.value? = some x := by
  cases type with
  | int8 | int16 | int32 | date =>
    obtain ⟨n, hn, rfl⟩ := Option.map_eq_some_iff.mp h
    refine ⟨{ u.fresh with int_ := n, type_ := .int32 }, ?_, rfl⟩
    simp [getLiteralValue, hn]
  | int64 =>
    obtain ⟨n, hn, rfl⟩ := Option.map_eq_some_iff.mp h
    refine ⟨{ u.fresh with int64_ := n, type_ := .int64 }, ?_, rfl⟩
    simp [getLiteralValue, hn]
  | decimal =>
    obtain ⟨x, hx, rfl⟩ := Option.map_eq_some_iff.mp h
    refine ⟨{ u.fresh with double_ := x, int64_ := (x * 100).toInt64.toInt, real_ := 1, type_ := .decimal }, ?_, rfl⟩
    simp [getLiteralValue, hx]
  | string =>
    cases h
    exact ⟨_, rfl, rfl⟩
  | _ => cases h

theorem ne_column_of_literalValue? {type : KetiValueType} {text : Bytes} {x : Value}
    (h : literalValue? type text = some x) : type ≠ .column := by
  rintro rfl
  cases h

theorem hasValue_literal (row : Mem) (offsets : List Int) (s : SchemaInfo) (literal : Literal) :
    HasValue row offsets s literal.operand literal.value := by
  intro u
  obtain ⟨v, hRun, hValue⟩ := getLiteralValue_run u s literal.reads
  have hEval : calculOperandValue u row literal.operand offsets none = getLiteralValue u literal.operand 0 :=
    if_neg (ne_column_of_literalValue? literal.reads)
  rw [hEval]
  exact ⟨v, run'_eq_some_iff.mpr ⟨s, hRun⟩, hValue⟩

theorem stoi_of_literal {literal : Literal} (h : literal.value.type = .int32) :
    ∃ y, literal.value = .number y ∧ stoi literal.text = some y.number := by
  obtain ⟨type, text, value, hReads⟩ := literal
  dsimp only at h ⊢
  cases type with
  | int8 | int16 | int32 | date =>
    obtain ⟨n, hn, rfl⟩ := Option.map_eq_some_iff.mp hReads
    exact ⟨_, rfl, hn⟩
  | int64 | decimal =>
    obtain ⟨n, hn, rfl⟩ := Option.map_eq_some_iff.mp hReads
    cases h
  | string =>
    cases hReads
    cases h
  | _ => cases hReads

theorem text_of_literal {literal : Literal} (h : literal.value.type = .string) :
    literal.value = .string literal.text := by
  obtain ⟨type, text, value, hReads⟩ := literal
  dsimp only at h ⊢
  cases type with
  | int8 | int16 | int32 | date | int64 | decimal =>
    obtain ⟨n, hn, rfl⟩ := Option.map_eq_some_iff.mp hReads
    cases h
  | string =>
    cases hReads
    rfl
  | _ => cases hReads

end Literals

end CsdWorker
