import CsdWorker.ColumnOffset
import CsdWorker.FilterComparison

/-! # Integer columns

`get_column_value` copies a column of at most four bytes into a zeroed buffer of four bytes, so the sign of a shorter
integer is lost.
-/

namespace CsdWorker.RowLayout

open Memory Endian

set_option autoImplicit false

def integerWidth : MySQLDataType → Option Nat
  | .byte => some 1
  | .int16 => some 2
  | .int32 => some 4
  | .int64 => some 8
  | _ => none

/-- The column holds the integer `n` in two's complement. -/
structure StoresInteger (c : Column) (width : Nat) (n : Int) : Prop where
  width_eq : integerWidth c.type = some width
  length : c.length = width
  payload : c.payload = intLe width n
  fits : Fits width n

def integerKind (type : MySQLDataType) : NumberKind := if type = .int64 then .int64 else .int32

/-- The size of the buffer that the column is copied to. -/
def memberWidth (type : MySQLDataType) : Nat := if type = .int64 then 8 else 4

theorem leNat_replicate_zero (k : Nat) : leNat (List.replicate k 0) = 0 := by
  induction k with
  | zero => rfl
  | succ k ih => rw [List.replicate_succ, leNat, ih]; rfl

/-- A shorter column is read without its sign. -/
theorem zeroExtended_of_lt {width : Nat} {bytes : Bytes} (h : bytes.length < width) :
    zeroExtended width bytes = leNat bytes := by
  have hTake : (bytes ++ List.replicate width 0).take width = bytes ++ List.replicate (width - bytes.length) 0 := by
    rw [List.take_append, List.take_of_length_le h.le, List.take_replicate, min_eq_left (Nat.sub_le _ _)]
  have hLength : (bytes ++ List.replicate (width - bytes.length) (0 : UInt8)).length = width := by
    rw [List.length_append, List.length_replicate]
    omega
  have hBound := leNat_lt bytes
  have hPow : 2 * 256 ^ bytes.length ≤ 256 ^ width := by
    calc 2 * 256 ^ bytes.length ≤ 256 * 256 ^ bytes.length := Nat.mul_le_mul_right _ (by decide)
      _ = 256 ^ (bytes.length + 1) := by rw [Nat.pow_succ, Nat.mul_comm]
      _ ≤ 256 ^ width := Nat.pow_le_pow_right (by decide) h
  rw [zeroExtended, hTake, leInt, hLength, leNat_append, leNat_replicate_zero, Nat.mul_zero, Nat.add_zero]
  exact wrap_of_fits (fits_natCast.mpr (by omega))

theorem zeroExtended_self (bytes : Bytes) : zeroExtended bytes.length bytes = leInt bytes := by
  rw [zeroExtended, List.take_left]

theorem zeroExtended_intLe_iff {width w : Nat} {n : Int} (hWidth : w ≤ width) (hFits : Fits w n) :
    zeroExtended width (intLe w n) = n ↔ w = width ∨ 0 ≤ n := by
  obtain hLt | rfl := Nat.lt_or_eq_of_le hWidth
  · have hPos : (0 : Int) < (256 ^ w : Nat) := by positivity
    have hNonneg := Int.emod_nonneg n hPos.ne'
    have hBelow := Int.emod_lt_of_pos n hPos
    rw [zeroExtended_of_lt (by rwa [length_intLe]), intLe, leNat_natLe, Nat.mod_eq_of_lt (by omega),
      Int.toNat_of_nonneg hNonneg]
    constructor
    · intro hSame
      exact Or.inr (hSame ▸ hNonneg)
    · rintro (hSame | hNonneg)
      · exact absurd hSame hLt.ne
      · obtain ⟨-, hHigh⟩ := hFits
        exact Int.emod_eq_of_lt hNonneg (by omega)
  · have hSelf := zeroExtended_self (intLe w n)
    rw [length_intLe] at hSelf
    rw [hSelf, leInt_intLe hFits.1 hFits.2]
    exact iff_of_true rfl (Or.inl rfl)

theorem integerWidth_le {type : MySQLDataType} {width : Nat} (h : integerWidth type = some width) :
    width ≤ memberWidth type ∧ (width = memberWidth type ↔ 4 ≤ width) := by
  cases type with
  | byte | int16 | int32 | int64 =>
    cases h
    decide
  | _ => cases h

theorem getColumnValue_integer (u : KValue) (m : Mem) {schemaInfo : SchemaInfo} {operand : Operand} {offsets : List Int}
    {index columnIndex start width : Nat} {type : MySQLDataType}
    (hName : NamesColumn schemaInfo operand index columnIndex) (hType : schemaInfo.columnType[columnIndex]? = some type)
    (hWidth : integerWidth type = some width) (hStart : offsets[columnIndex]? = some (start : Int))
    (hStop : offsets[columnIndex + 1]? = some ((start + width : Nat) : Int)) :
    ∃ v, (getColumnValue u m operand offsets index).run schemaInfo = some (v, schemaInfo) ∧
      v.number? = some ⟨integerKind type, zeroExtended (memberWidth type) (read m start width), 0⟩ := by
  obtain ⟨name, hValue, hLookup⟩ := hName.lookup
  have hLength : ((start + width : Nat) : Int) - start = width := by omega
  have hSlice : slice m (start : Int) (width : Int) = some (read m start width) := if_pos (by omega)
  rw [getColumnValue, hValue, lift_some_bind, StateT.run_bind, columnIndexAt_of_some hLookup, Option.bind_eq_bind,
    Option.bind_some, run_get_bind, hType, lift_some_bind, hStart, lift_some_bind, hStop, lift_some_bind]
  cases type with
  | byte | int16 | int32 | int64 =>
    dsimp only
    rw [hLength, hSlice, lift_some_bind]
    exact ⟨_, rfl, rfl⟩
  | _ => cases hWidth

section Row
variable {schemaInfo : SchemaInfo} {columns : List Column} {row : Bytes} {c : Column} {columnIndex width : Nat}
    {n : Int}

theorem StoresInteger.encoded_eq (h : StoresInteger c width n) : c.encoded = intLe width n := by
  have hType : c.type ≠ .varString := by
    intro hType
    have hWidth := h.width_eq
    rw [hType] at hWidth
    cases hWidth
  rw [Column.encoded, if_neg hType, h.payload]

/-- What is read of an integer column, whichever columns lie around it. -/
theorem getColumnValue_storedInteger (u : KValue) (hRow : SchemaRow schemaInfo columns row)
    (hColumn : columns[columnIndex]? = some c) (hInteger : StoresInteger c width n) {operand : Operand} {index : Nat}
    (hName : NamesColumn schemaInfo operand index columnIndex) {offsets : List Int}
    (hOffsets : columnOffsetList row schemaInfo = some offsets) :
    ∃ v, (getColumnValue u (ofBytes row) operand offsets index).run schemaInfo = some (v, schemaInfo) ∧
      v.number? = some ⟨integerKind c.type, zeroExtended (memberWidth c.type) (intLe width n), 0⟩ := by
  obtain rfl := Option.some_inj.mp (hRow.columnOffsetList_eq.symm.trans hOffsets)
  obtain ⟨before, after, rfl, rfl⟩ := exists_split_of_getElem? hColumn
  have hEncoded := hInteger.encoded_eq
  obtain ⟨hStart, hStop⟩ := columnStarts_at before after c
  have hRead := hRow.read_column (read_ofBytes row)
  rw [hEncoded, length_intLe] at hStop hRead
  obtain ⟨v, hRun, hNumber⟩ := getColumnValue_integer u (ofBytes row) hName hRow.entry.1 hInteger.width_eq hStart hStop
  rw [hRead] at hNumber
  exact ⟨v, hRun, hNumber⟩

end Row

/-- The evaluator reads the column as the integer `n`, and comparisons of the column with integers of its kind are those
of `n`. -/
structure ReadsInteger (schemaInfo : SchemaInfo) (row : Bytes) (name : Bytes) (kind : NumberKind) (n : Int) : Prop where
  value : ∀ (u : KValue) (operand : Operand) (index : Nat), operand.values[index]? = some name →
    ∃ offsets v, columnOffsetList row schemaInfo = some offsets ∧
      (getColumnValue u (ofBytes row) operand offsets index).run' schemaInfo = some v ∧ v.number? = some ⟨kind, n, 0⟩
  order : ∀ (u : KValue) (operator : KetiOperType) (rv : Operand) (k : Int) (offsets : List Int),
    columnOffsetList row schemaInfo = some offsets → HasNumber (ofBytes row) offsets schemaInfo rv ⟨kind, k, 0⟩ →
    Filter.ComparesAs (ofBytes row) offsets schemaInfo ⟨⟨[.column], [name]⟩, operator, rv⟩ n k u

/-- An integer column is read right exactly when it is as wide as the buffer or its integer is not negative. -/
theorem readsInteger_iff (schemaInfo : SchemaInfo) (columns : List Column) (row : Bytes) (columnIndex : Nat)
    (name : Bytes) (c : Column) (width : Nat) (n : Int) (hRow : SchemaRow schemaInfo columns row)
    (hColumn : columns[columnIndex]? = some c) (hName : schemaInfo.columnIndexMap.lookup name = some columnIndex)
    (hInteger : StoresInteger c width n) :
    ReadsInteger schemaInfo row name (integerKind c.type) n ↔ 4 ≤ width ∨ 0 ≤ n := by
  obtain ⟨hLe, hSame⟩ := integerWidth_le hInteger.width_eq
  have hOffsets := hRow.columnOffsetList_eq
  have hSingle : NamesColumn schemaInfo ⟨[.column], [name]⟩ 0 columnIndex := ⟨name, rfl, hName⟩
  rw [← hSame, ← zeroExtended_intLe_iff hLe hInteger.fits]
  constructor
  · intro h
    obtain ⟨offsets, v, hOffsets, hRun, hNumber⟩ := h.value KValue.zero ⟨[.column], [name]⟩ 0 rfl
    obtain ⟨v', hRun', hNumber'⟩ := getColumnValue_storedInteger KValue.zero hRow hColumn hInteger hSingle hOffsets
    obtain rfl := Option.some_inj.mp (hRun.symm.trans (run'_eq_some_iff.mpr ⟨schemaInfo, hRun'⟩))
    rw [hNumber', Option.some_inj, Number.mk.injEq] at hNumber
    exact hNumber.2.1
  · intro hValue
    constructor
    · intro u operand index hOperand
      obtain ⟨v, hRun, hNumber⟩ := getColumnValue_storedInteger u hRow hColumn hInteger ⟨name, hOperand, hName⟩ hOffsets
      exact ⟨_, v, hOffsets, run'_eq_some_iff.mpr ⟨schemaInfo, hRun⟩, by rw [hNumber, hValue]⟩
    · intro u operator rv k offsets hOffsets hRight
      have hLeft : HasNumber (ofBytes row) offsets schemaInfo ⟨[.column], [name]⟩ ⟨integerKind c.type, n, 0⟩ := by
        intro u
        obtain ⟨v, hRun, hNumber⟩ := getColumnValue_storedInteger u hRow hColumn hInteger hSingle hOffsets
        exact ⟨v, run'_eq_some_iff.mpr ⟨schemaInfo, hRun⟩, by rw [hNumber, hValue]⟩
      have hMember : Filter.rightMember u ⟨integerKind c.type, n, 0⟩ ⟨integerKind c.type, k, 0⟩ = k :=
        Filter.rightMember_of_iff u Iff.rfl
      rw [Filter.comparesAs_iff_order hLeft hRight, hMember]
      exact ⟨Int.cast_lt.symm, Int.cast_inj.symm⟩

def levelColumns : List Input.ColumnEntry := [⟨bytesOf "level", .byte, 1, false⟩, ⟨bytesOf "id", .int32, 4, true⟩]

/-- `id` -5, `level` -1. -/
def levelRow : Bytes := [251, 255, 255, 255, 255]

theorem levelRow_laidOut :
    SchemaRow (Input.parseSchemaInfo levelColumns 256)
      [⟨.int32, 4, [251, 255, 255, 255]⟩, ⟨.byte, 1, [255]⟩] levelRow :=
  schemaRow_of_parsed (Input.parsedSchema levelColumns 256 (by decide) (by decide)) _ (by decide) (by decide)
    (by simp [Column.Stored])

theorem negative_id_read : ReadsInteger (Input.parseSchemaInfo levelColumns 256) levelRow (bytesOf "id") .int32 (-5) :=
  (readsInteger_iff _ _ levelRow 0 (bytesOf "id") _ 4 (-5) levelRow_laidOut rfl (by decide)
    ⟨rfl, rfl, by decide, by decide⟩).mpr (Or.inl (by decide))

/-- The level -1 is read as 255. -/
theorem negative_level_misread :
    SchemaRow (Input.parseSchemaInfo levelColumns 256) [⟨.int32, 4, [251, 255, 255, 255]⟩, ⟨.byte, 1, [255]⟩] levelRow ∧
      StoresInteger ⟨.byte, 1, [255]⟩ 1 (-1) ∧
      ¬ ReadsInteger (Input.parseSchemaInfo levelColumns 256) levelRow (bytesOf "level") .int32 (-1) := by
  refine ⟨levelRow_laidOut, ⟨rfl, rfl, by decide, by decide⟩, fun h => ?_⟩
  obtain ⟨offsets, v, hOffsets, hRun, hNumber⟩ := h.value KValue.zero ⟨[.column], [bytesOf "level"]⟩ 0 rfl
  obtain rfl := Option.some_inj.mp (levelRow_laidOut.columnOffsetList_eq.symm.trans hOffsets)
  have hMapped := congrArg (Option.map KValue.number?) hRun
  rw [Option.map_some, hNumber] at hMapped
  exact absurd hMapped (by decide)

end CsdWorker.RowLayout
