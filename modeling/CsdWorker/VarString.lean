import CsdWorker.RowLayout

/-! # String columns of variable length

`calcul_column_offset` takes the width of the stored length from the declared length of the column,
`get_column_value` from the length that is stored.
-/

namespace CsdWorker.RowLayout

open Memory Endian

set_option autoImplicit false

theorem rtrim_cons (b : UInt8) (s : Bytes) :
    rtrim (b :: s) = if rtrim s = [] ∧ isTrimmed b then [] else b :: rtrim s := by
  rw [rtrim, rtrim, List.rdropWhile, List.reverse_cons, List.dropWhile_append, List.rdropWhile]
  cases hRest : s.reverse.dropWhile isTrimmed with
  | nil =>
    cases hb : isTrimmed b with
    | true => simp [hb]
    | false => simp [hb]
  | cons x xs => simp

theorem trim_cons_blank {b : UInt8} (h : isTrimmed b) (s : Bytes) : trim (b :: s) = trim s := by
  rw [trim, rtrim_cons]
  split
  · rename_i hNone
    rw [trim, hNone.1]
  · rw [trim, ltrim, List.dropWhile_cons_of_pos h, ltrim]

theorem trim_cons_other {b : UInt8} (h : ¬isTrimmed b) (s : Bytes) : trim (b :: s) = b :: rtrim s := by
  rw [trim, rtrim_cons, if_neg fun hBoth => h hBoth.2, ltrim, List.dropWhile_cons_of_neg h]

theorem length_trim_le (s : Bytes) : (trim s).length ≤ (rtrim s).length :=
  (List.dropWhile_sublist isTrimmed).length_le

/-- A byte in front changes the trimmed string exactly when it is not a blank. -/
theorem trim_cons_eq_iff (b : UInt8) (s : Bytes) : trim (b :: s) = trim s ↔ isTrimmed b := by
  constructor
  · intro hEq
    by_contra hOther
    have hLength := congrArg List.length hEq
    rw [trim_cons_other hOther, List.length_cons] at hLength
    have hLe := length_trim_le s
    omega
  · exact fun h => trim_cons_blank h s

/-- The width that `get_column_value` takes a column of `length` bytes to begin with. -/
def varTune (length : Nat) : Nat := if length < 255 then 1 else 2

/-- The evaluator looks for the column `operand.values[index]` at position `columnIndex`. -/
structure NamesColumn (schemaInfo : SchemaInfo) (operand : Operand) (index columnIndex : Nat) : Prop where
  lookup : ∃ name, operand.values[index]? = some name ∧ schemaInfo.columnIndexMap.lookup name = some columnIndex

theorem getColumnValue_varString (u : KValue) (m : Mem) {schemaInfo : SchemaInfo} {operand : Operand}
    {offsets : List Int} {index columnIndex start length : Nat}
    (hName : NamesColumn schemaInfo operand index columnIndex)
    (hType : schemaInfo.columnType[columnIndex]? = some .varString)
    (hStart : offsets[columnIndex]? = some (start : Int))
    (hStop : offsets[columnIndex + 1]? = some ((start + length : Nat) : Int)) (hLength : varTune length ≤ length) :
    (getColumnValue u m operand offsets index).run schemaInfo =
      some ({ u.fresh with
        string_ := trim (read m (start + varTune length) (length - varTune length))
        type_ := .string }, schemaInfo) := by
  obtain ⟨name, hValue, hLookup⟩ := hName.lookup
  have hWidth : ((start + length : Nat) : Int) - start = length := by omega
  have hTune : (if (length : Int) < 255 then (1 : Int) else 2) = varTune length := by
    rw [varTune]
    split_ifs <;> omega
  have hSlice : slice m ((start : Int) + varTune length) ((length : Int) - varTune length) =
      some (read m (start + varTune length) (length - varTune length)) := by
    rw [slice, if_pos (by omega), ← Nat.cast_add, ← Nat.cast_sub hLength, Int.toNat_natCast, Int.toNat_natCast]
  simp only [getColumnValue, hValue, columnIndexAt_of_some hLookup, StateT.run_bind, StateT.run_monadLift,
    monadLift_self, Option.pure_def, Option.bind_eq_bind, Option.bind_some, StateT.run_get, StateT.run_pure, hType,
    hStart, hStop, hWidth, hTune, hSlice]

/-- The stored length and the declared length lead to the same width, or the byte that is cut off is a blank. -/
def PayloadKept (c : Column) : Prop :=
  if c.length < 256 then c.payload.length ≤ 253 ∨ ∃ b ∈ c.payload.head?, isTrimmed b else 253 ≤ c.payload.length

section Payload
variable {c : Column}

theorem trim_drop_encoded_short (hType : c.type = .varString) (hShort : c.length < 256) :
    trim (c.encoded.drop (varTune c.encoded.length)) = trim c.payload ↔
      c.payload.length ≤ 253 ∨ ∃ b ∈ c.payload.head?, isTrimmed b := by
  have hLength := length_encoded_varString hType
  rw [lengthWidth, if_pos hShort] at hLength
  rw [hLength, varTune, Column.encoded, if_pos hType, lengthWidth, if_pos hShort]
  split
  · rename_i hLt
    rw [List.drop_left' (length_natLe 1 _)]
    exact iff_of_true rfl (Or.inl (by omega))
  · rename_i hGe
    cases hPayload : c.payload with
    | nil =>
      rw [hPayload, List.length_nil] at hGe
      omega
    | cons b s =>
      rw [hPayload, List.length_cons] at hGe
      have hDrop : (natLe 1 (b :: s).length ++ b :: s).drop 2 = s := rfl
      rw [hDrop, eq_comm, trim_cons_eq_iff]
      constructor
      · exact fun h => Or.inr ⟨b, rfl, h⟩
      · rintro (hFew | ⟨b', hHead, h⟩)
        · rw [List.length_cons] at hFew
          omega
        · obtain rfl := Option.some_inj.mp hHead
          exact h

theorem trim_drop_encoded_long (hType : c.type = .varString) (hLong : ¬c.length < 256) :
    trim (c.encoded.drop (varTune c.encoded.length)) = trim c.payload ↔ 253 ≤ c.payload.length := by
  have hLength := length_encoded_varString hType
  rw [lengthWidth, if_neg hLong] at hLength
  rw [hLength, varTune, Column.encoded, if_pos hType, lengthWidth, if_neg hLong]
  split
  · rename_i hLt
    -- the upper byte of a length below 256 is zero, and zero is not a blank
    have hUpper : UInt8.ofNat (c.payload.length / 256 % 256) = 0 := by
      rw [Nat.div_eq_of_lt (by omega)]
      rfl
    have hDrop : (natLe 2 c.payload.length ++ c.payload).drop 1 = 0 :: c.payload := by
      rw [natLe, natLe, natLe, hUpper]
      rfl
    rw [hDrop, trim_cons_eq_iff]
    exact iff_of_false (by decide) (by omega)
  · rename_i hGe
    rw [List.drop_left' (length_natLe 2 _)]
    exact iff_of_true rfl (by omega)

theorem trim_drop_encoded_iff (hType : c.type = .varString) :
    trim (c.encoded.drop (varTune c.encoded.length)) = trim c.payload ↔ PayloadKept c := by
  rw [PayloadKept]
  split
  · rename_i hShort
    exact trim_drop_encoded_short hType hShort
  · rename_i hLong
    exact trim_drop_encoded_long hType hLong

theorem varTune_le_encoded (hType : c.type = .varString) : varTune c.encoded.length ≤ c.encoded.length := by
  have hLength := length_encoded_varString hType
  rw [lengthWidth] at hLength
  rw [varTune]
  split_ifs at hLength ⊢ <;> omega

end Payload

/-- With the offsets of the row the column reads as its payload without the blanks around it. -/
def ReadsPayload (u : KValue) (m : Mem) (row : Bytes) (schemaInfo : SchemaInfo) (operand : Operand) (index : Nat)
    (payload : Bytes) : Prop :=
  ∃ offsets value schemaInfo', calculColumnOffset m schemaInfo = some offsets ∧
    (getColumnValue u m operand (offsets ++ [(row.length : Int)]) index).run schemaInfo = some (value, schemaInfo') ∧
    value.type_ = .string ∧ value.string_ = trim payload

/-- The value of a string column of variable length, as it is computed. -/
theorem getColumnValue_laidOut (u : KValue) {m : Mem} {schemaInfo : SchemaInfo} {before after : List Column}
    {c : Column} {row : Bytes} {operand : Operand} {index : Nat}
    (hLayout : LaidOut schemaInfo (before ++ c :: after) row) (hRow : read m 0 row.length = row)
    (hName : NamesColumn schemaInfo operand index before.length) (hType : c.type = .varString) :
    (getColumnValue u m operand (columnStarts (before ++ c :: after) ++ [(row.length : Int)]) index).run schemaInfo =
      some ({ u.fresh with
        string_ := trim (c.encoded.drop (varTune c.encoded.length))
        type_ := .string }, schemaInfo) := by
  obtain ⟨hStart, hStop⟩ := columnStarts_at before after c
  have hLength : encodedLength (before ++ c :: after) = row.length := by rw [hLayout.row, encodedLength]
  rw [hLength] at hStart hStop
  have hColumn := hLayout.entry.1
  rw [hType] at hColumn
  have hTune := varTune_le_encoded hType
  rw [getColumnValue_varString u m hName hColumn hStart hStop hTune,
    read_of_prefix (hLayout.read_column hRow) _ _ (by omega), List.take_of_length_le (by rw [List.length_drop])]

/-- A string column of variable length is read as it is stored exactly when the two widths agree or a blank
is cut off. -/
theorem readsPayload_iff (u : KValue) (m : Mem) (schemaInfo : SchemaInfo) (columns : List Column) (row : Bytes)
    (operand : Operand) (index columnIndex : Nat) (c : Column) (hLayout : LaidOut schemaInfo columns row)
    (hRow : read m 0 row.length = row) (hName : NamesColumn schemaInfo operand index columnIndex)
    (hColumn : columns[columnIndex]? = some c) (hType : c.type = .varString) :
    ReadsPayload u m row schemaInfo operand index c.payload ↔ PayloadKept c := by
  obtain ⟨before, after, rfl, rfl⟩ := exists_split_of_getElem? hColumn
  have hOffsets := calculColumnOffset_laidOut hLayout hRow
  have hGet := getColumnValue_laidOut u hLayout hRow hName hType
  rw [← trim_drop_encoded_iff hType]
  constructor
  · rintro ⟨offsets, value, schemaInfo', hCalcul, hValue, -, hString⟩
    obtain rfl := Option.some_inj.mp (hOffsets.symm.trans hCalcul)
    rw [hGet, Option.some_inj, Prod.mk.injEq] at hValue
    obtain ⟨rfl, -⟩ := hValue
    exact hString
  · intro hKept
    exact ⟨_, _, schemaInfo, hOffsets, hGet, rfl, hKept⟩

/-- A key and a comment with the declared length `length`. -/
def commentSchema (length : Int) : SchemaInfo :=
  { columnName := [bytesOf "key", bytesOf "comment"], columnOffset := [0, 4, 4 + length], columnLength := [4, length],
    columnType := [.int32, .varString], columnIndexMap := [(bytesOf "key", 0), (bytesOf "comment", 1)], pkColumn := [],
    tableIndexNumber := 0, hasVarChar := true }

def keyColumn : Column := ⟨.int32, 4, [7, 0, 0, 0]⟩

def commentOperand : Operand := ⟨[.column], [bytesOf "comment"]⟩

theorem comment_named (length : Int) : NamesColumn (commentSchema length) commentOperand 0 1 :=
  ⟨bytesOf "comment", rfl, by change List.lookup _ [(bytesOf "key", 0), (bytesOf "comment", 1)] = _; decide⟩

theorem comment_laidOut {length : Int} {payload : Bytes} (h : payload.length < 256) :
    LaidOut (commentSchema length) [keyColumn, ⟨.varString, length, payload⟩]
      ([keyColumn, ⟨.varString, length, payload⟩].flatMap Column.encoded) where
  names := rfl
  types := rfl
  lengths := rfl
  offsets i hi := by
    match i, hi with
    | 0, _ => rfl
    | 1, _ => rfl
  stored := by
    refine List.forall_mem_cons.mpr ⟨rfl, List.forall_mem_singleton.mpr ?_⟩
    change payload.length < 256 ^ lengthWidth length
    rw [lengthWidth]
    split
    · exact h
    · exact h.trans (by decide)
  row := rfl

theorem short_comment_read :
    ReadsPayload KValue.zero (ofBytes [7, 0, 0, 0, 3, 32, 65, 66]) [7, 0, 0, 0, 3, 32, 65, 66] (commentSchema 44)
      commentOperand 0 [32, 65, 66] :=
  (readsPayload_iff KValue.zero (ofBytes [7, 0, 0, 0, 3, 32, 65, 66]) (commentSchema 44)
    [keyColumn, ⟨.varString, 44, [32, 65, 66]⟩] [7, 0, 0, 0, 3, 32, 65, 66] commentOperand 0 1
    ⟨.varString, 44, [32, 65, 66]⟩ (comment_laidOut (by decide)) (by decide) (comment_named 44) rfl rfl).mpr
    (Or.inl (by decide))

/-- Two bytes in a column of at most 300: the upper byte of the stored length is taken for the first one. -/
theorem long_comment_misread :
    ¬ReadsPayload KValue.zero (ofBytes [7, 0, 0, 0, 2, 0, 65, 66]) [7, 0, 0, 0, 2, 0, 65, 66] (commentSchema 300)
      commentOperand 0 [65, 66] := by
  rintro ⟨offsets, value, schemaInfo', hCalcul, hValue, -, hString⟩
  have hLayout :
    LaidOut (commentSchema 300) ([keyColumn] ++ [⟨.varString, 300, [65, 66]⟩]) [7, 0, 0, 0, 2, 0, 65, 66] :=
    comment_laidOut (by decide)
  have hRow : read (ofBytes [7, 0, 0, 0, 2, 0, 65, 66]) 0 8 = [7, 0, 0, 0, 2, 0, 65, 66] := by decide
  obtain rfl := Option.some_inj.mp ((calculColumnOffset_laidOut hLayout hRow).symm.trans hCalcul)
  rw [getColumnValue_laidOut KValue.zero hLayout hRow (comment_named 300) rfl, Option.some_inj, Prod.mk.injEq] at hValue
  obtain ⟨rfl, -⟩ := hValue
  revert hString
  decide

end CsdWorker.RowLayout
