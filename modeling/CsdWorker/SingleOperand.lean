import CsdWorker.ColumnLookup
import CsdWorker.ProjectionFrame

/-! # Projected operands of one element

`projection_raw_data` does not evaluate an operand of one element. It takes the element for the name of a column and
copies the bytes of that column, whatever the type of the element is.
-/

namespace CsdWorker.Projection

open Memory

set_option autoImplicit false

def columnBytes (row : Mem) (offsets : List Int) (columnIndex : Nat) : Option Bytes := do
  let startOffset ← offsets[columnIndex]?
  let endOffset ← offsets[columnIndex + 1]?
  slice row startOffset (endOffset - startOffset)

/-- The length and the destination after `bytes` are copied to `offset`. -/
def written (dest : Mem) (offset : Nat) (bytes : Bytes) : Nat × Mem := (bytes.length, write dest offset bytes)

theorem written_inj {dest : Mem} {offset : Nat} {xs ys : Bytes} (h : written dest offset xs = written dest offset ys) :
    xs = ys := by
  obtain ⟨hLength, hWrite⟩ := Prod.mk.injEq .. ▸ h
  rw [← read_write_self dest offset xs, hWrite, hLength, read_write_self]

section Single
variable (u : KValue) (row : Mem) (offsets : List Int) (s : SchemaInfo) (dest : Mem) (offset : Nat)
  (type : KetiValueType) (value : Bytes)

/-- What the element stands for: the bytes of the column it names, or the literal as `convert_value_to_char` has it. -/
def singleResult : Option (Nat × Mem) :=
  if type = .column then do
    let columnIndex ← s.columnIndexMap.lookup value
    let bytes ← columnBytes row offsets columnIndex
    pure (written dest offset bytes)
  else do
    let literal ← (calculOperandValue u row ⟨[type], [value]⟩ offsets none).run' s
    convertValueToChar u dest literal offset

/-- The copy behind the lookup of the name. -/
def copyColumn (columnIndex : Nat) : Eval (Nat × Mem) := do
  let startOffset ← offsets[columnIndex]?
  let endOffset ← offsets[columnIndex + 1]?
  let column ← slice row startOffset (endOffset - startOffset)
  pure (written dest offset column)

theorem copyColumn_run' (columnIndex : Nat) :
    (copyColumn row offsets dest offset columnIndex).run' s =
      (columnBytes row offsets columnIndex).map (written dest offset) := by
  rw [copyColumn, columnBytes, run'_lift_bind, Option.bind_eq_bind, Option.map_bind]
  refine Option.bind_congr fun startOffset _ => ?_
  rw [run'_lift_bind, Function.comp_apply, Option.map_bind]
  refine Option.bind_congr fun endOffset _ => ?_
  rw [run'_lift_bind, Function.comp_apply]
  exact Option.map_eq_bind.symm

theorem projectionRawData_single :
    (projectionRawData u row ⟨[type], [value]⟩ offsets dest offset).run' s =
      (columnBytes row offsets ((s.columnIndexMap.lookup value).getD 0)).map (written dest offset) := by
  obtain ⟨s', hIndex, -⟩ := columnIndexAt_run value s
  have hShortcut : (projectionRawData u row ⟨[type], [value]⟩ offsets dest offset).run' s =
      (columnIndexAt value >>= copyColumn row offsets dest offset).run' s := rfl
  rw [hShortcut, StateT.run'_eq, StateT.run_bind, hIndex, ← copyColumn_run' row offsets s']
  rfl

variable {u row offsets s dest offset type value}

/-- A literal has at most one digit pair behind the point. -/
theorem real_of_literal {v : KValue} (hType : type ≠ .column)
    (h : (calculOperandValue u row ⟨[type], [value]⟩ offsets none).run' s = some v) : 0 ≤ v.real_ ∧ v.real_ ≤ 1 := by
  have hQuery : Query (getLiteralValue u ⟨[type], [value]⟩ 0) fun v => 0 ≤ v.real_ ∧ v.real_ ≤ 1 := by
    rw [getLiteralValue]
    refine Query.lift_bind fun type _ => Query.lift_bind fun value _ => ?_
    cases type with
    | int8 | int16 | int32 | date | int64 | float32 | double | decimal =>
      exact Query.lift_bind fun _ _ => Query.pure (by simp [KValue.fresh])
    | _ => exact Query.pure (by simp [KValue.fresh])
  have hLiteral : (calculOperandValue u row ⟨[type], [value]⟩ offsets none).run' s =
      (getLiteralValue u ⟨[type], [value]⟩ 0).run' s := by
    rw [calculOperandValue]
    change (if type = .column then _ else _ : Eval KValue).run' s = _
    rw [if_neg hType]
  exact hQuery.answer_run' (hLiteral.symm.trans h)

theorem convertValueToChar_ne_none {v : KValue} (hReal : 0 ≤ v.real_) : convertValueToChar u dest v offset ≠ none := by
  by_cases hType : v.type_ = .decimal
  · rw [DecimalCodec.convertValueToChar_decimal_eq u dest offset hType, if_neg (not_lt.mpr hReal)]
    exact Option.some_ne_none _
  · rw [convertValueToChar_encodable u ⟨fun h => absurd h hType, fun h => absurd h hType⟩]
    exact Option.some_ne_none _

/-- The encoder copies exactly these bytes. -/
theorem convertValueToChar_eq_written_iff {v : KValue} (hReal : v.real_ ≤ 4) {bytes : Bytes} :
    convertValueToChar u dest v offset = some (written dest offset bytes) ↔ Encodable v offset ∧
      encodedValue u v = bytes := by
  constructor
  · intro hWritten
    have hEncodable : Encodable v offset :=
      ⟨(writesOnly_iff_keepsFrame u dest v offset).mp (writesOnly_of_write hWritten), fun _ => hReal⟩
    rw [convertValueToChar_encodable u hEncodable, Option.some_inj] at hWritten
    exact ⟨hEncodable, written_inj hWritten⟩
  · rintro ⟨hEncodable, rfl⟩
    exact convertValueToChar_encodable u hEncodable dest

end Single

/-- What the shortcut needs: a column that is known, or a literal that reads like the column it is taken for. -/
def SingleKept (u : KValue) (row : Mem) (offsets : List Int) (s : SchemaInfo) (offset : Nat) (type : KetiValueType)
    (value : Bytes) :
    Prop :=
  if type = .column then Known s value ∨ columnBytes row offsets 0 = none
  else
    let column := columnBytes row offsets ((s.columnIndexMap.lookup value).getD 0)
    let literal := (calculOperandValue u row ⟨[type], [value]⟩ offsets none).run' s
    column = none ∧ literal = none ∨ ∃ v, literal = some v ∧ Encodable v offset ∧ column = some (encodedValue u v)

theorem projectionRawData_single_iff (u : KValue) (row : Mem) (offsets : List Int) (s : SchemaInfo) (dest : Mem)
    (offset : Nat) (type : KetiValueType) (value : Bytes) :
    (projectionRawData u row ⟨[type], [value]⟩ offsets dest offset).run' s =
      singleResult u row offsets s dest offset type value ↔
      SingleKept u row offsets s offset type value := by
  rw [projectionRawData_single, singleResult, SingleKept]
  by_cases hType : type = .column
  · rw [if_pos hType, if_pos hType]
    cases hLookup : s.columnIndexMap.lookup value with
    | some columnIndex =>
      refine iff_of_true ?_ (Or.inl (by rw [Known, hLookup]; rfl))
      rw [Option.getD_some, Option.bind_eq_bind, Option.bind_some]
      exact Option.map_eq_bind
    | none =>
      have hAbsent : ¬ Known s value := by simp [Known, hLookup]
      rw [Option.getD_none, or_iff_right hAbsent]
      exact Option.map_eq_none_iff
  · rw [if_neg hType, if_neg hType]
    cases hLiteral : (calculOperandValue u row ⟨[type], [value]⟩ offsets none).run' s with
    | none => simp
    | some v =>
      obtain ⟨hReal, hOne⟩ := real_of_literal hType hLiteral
      cases hColumn : columnBytes row offsets ((s.columnIndexMap.lookup value).getD 0) with
      | none => simpa [eq_comm] using convertValueToChar_ne_none hReal
      | some bytes =>
        simp only [Option.map_some, Option.bind_eq_bind, Option.bind_some]
        rw [eq_comm, convertValueToChar_eq_written_iff (hOne.trans (by decide))]
        simp [eq_comm]

/-- The literal 5 in the select list is looked up as a name, and the part key is copied in its place. -/
theorem literal_projected_as_partkey :
    (projectionRawData KValue.zero (ofBytes partRow) ⟨[.int32], [bytesOf "5"]⟩ [0, 4, 8] zeroed 0).run' partSchema ≠
      singleResult KValue.zero (ofBytes partRow) [0, 4, 8] partSchema zeroed 0 .int32 (bytesOf "5") := by
  intro hSame
  have hBytes := congrArg (Option.map fun result => read result.2 0 4) hSame
  exact absurd hBytes (by decide)

end CsdWorker.Projection
