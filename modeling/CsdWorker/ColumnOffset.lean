import CsdWorker.ParseSnippet
import CsdWorker.Substring

/-! # The column offsets of a row

`calcul_column_offset` on the rows of a schema as `parse_snippet` builds it. Both lists that the filter and the
projection work with, the computed one and that of the schema, end with the length of the row.
-/

namespace CsdWorker.RowLayout

open Memory Endian Input

set_option autoImplicit false

/-- A row as the schema of a snippet lays it out: the offsets of the schema end with the length of a row of fixed
columns, and a column of variable length is flagged. -/
structure SchemaRow (schemaInfo : SchemaInfo) (columns : List Column) (row : Bytes) : Prop extends
    LaidOut schemaInfo columns row where
  flag : FlagSet schemaInfo columns
  closing : schemaInfo.columnOffset = startsOf schemaInfo.columnLength ++ [schemaInfo.columnLength.sum]

/-- The schema of a column list lays out every row with columns of its types and lengths, key columns first. -/
theorem schemaRow_of_parsed {columnList : List ColumnEntry} {schemaInfo : SchemaInfo}
    (h : ParsedSchema columnList schemaInfo) (columns : List Column)
    (hTypes : columns.map Column.type = (keyFirst columnList).map ColumnEntry.type)
    (hLengths : columns.map Column.length = (keyFirst columnList).map ColumnEntry.length)
    (hStored : ∀ c ∈ columns, c.Stored) :
    SchemaRow schemaInfo columns (columns.flatMap Column.encoded) where
  names := by
    have hCount := congrArg List.length hTypes
    rw [List.length_map, List.length_map] at hCount
    rw [h.columnName, List.length_map, hCount]
  types := h.columnType.trans hTypes.symm
  lengths := h.columnLength.trans hLengths.symm
  offsets := by
    intro i hi
    have hRange : i < (columns.map Column.length).length := by rwa [List.length_map]
    rw [h.columnOffset, h.columnLength, ← hLengths, startsOf, List.getElem?_append_left (by simpa using hi),
      List.getElem?_map, List.getElem?_range hRange, Option.map_some, List.map_take]
  stored := hStored
  row := rfl
  flag := by
    rintro ⟨c, hc, hType⟩
    have hIn : MySQLDataType.varString ∈ (keyFirst columnList).map ColumnEntry.type :=
      hTypes ▸ List.mem_map.mpr ⟨c, hc, hType⟩
    obtain ⟨column, hColumn, hVar⟩ := List.mem_map.mp hIn
    exact h.hasVarChar.mpr ⟨column, (keyFirst_perm columnList).mem_iff.mp hColumn, hVar⟩
  closing := h.columnOffset

section Starts
variable {schemaInfo : SchemaInfo} {columns : List Column} {row : Bytes}

theorem encodedLength_eq_sum (columns : List Column) :
    encodedLength columns = (columns.map fun c => c.encoded.length).sum := by
  rw [encodedLength, List.length_flatMap]

theorem length_columnStarts (columns : List Column) : (columnStarts columns).length = columns.length := by
  simp [columnStarts]

/-- Without columns of variable length the columns start where the schema says. -/
theorem columnStarts_of_fixed (h : LaidOut schemaInfo columns row) (hFixed : ∀ c ∈ columns, c.type ≠ .varString) :
    columnStarts columns = schemaInfo.columnOffset.take columns.length := by
  apply List.ext_getElem?
  intro i
  by_cases hi : i < columns.length
  · have hStored : ∀ c ∈ columns.take i, c.Stored := fun c hc => h.stored c (List.mem_of_mem_take hc)
    have hTypes : ∀ c ∈ columns.take i, c.type ≠ .varString := fun c hc => hFixed c (List.mem_of_mem_take hc)
    rw [columnStarts, List.getElem?_map, getElem?_rowStarts 0 _ (by simpa using hi), List.getElem?_take_of_lt hi,
      h.offsets i hi, Option.map_some, Nat.zero_add, ← List.map_take, ← List.flatMap_def,
      sum_lengths_of_fixed hStored hTypes, encodedLength]
  · rw [List.getElem?_eq_none (by rw [length_columnStarts]; omega),
      List.getElem?_eq_none ((List.length_take_le _ _).trans (not_lt.mp hi))]

/-- Whichever list a layer uses, it says where the columns start and, behind them, where the row ends. -/
theorem SchemaRow.columnOffsetList_eq (h : SchemaRow schemaInfo columns row) :
    columnOffsetList row schemaInfo = some (columnStarts columns ++ [(encodedLength columns : Int)]) := by
  have hLength : encodedLength columns = row.length := by rw [h.row, encodedLength]
  rw [columnOffsetList, hLength]
  split
  · rw [calculColumnOffset_laidOut h.toLaidOut (read_ofBytes row)]
    rfl
  · rename_i hNone
    have hFixed : ∀ c ∈ columns, c.type ≠ .varString := fun c hc hType => hNone (h.flag ⟨c, hc, hType⟩)
    rw [columnStarts_of_fixed h.toLaidOut hFixed, h.closing, List.take_left' (by simp [startsOf, h.lengths]), h.lengths,
      sum_lengths_of_fixed h.stored hFixed, hLength]

end Starts

section Parsed
variable {schemaInfo : SchemaInfo} {columnList : List ColumnEntry} (h : ParsedSchema columnList schemaInfo)
  (hLengths : ∀ column ∈ columnList, column.type ≠ .varString → 0 ≤ column.length)
include h hLengths

/-- The start of a column is never in front of the row, whatever the length bytes in front of it say. -/
theorem calculColumnOffsetFrom_isSome (m : Mem) {n i : Nat} {tune : Int} (hCount : i + n = (keyFirst columnList).length)
    (hStart : 0 ≤ (schemaInfo.columnLength.take i).sum + tune) :
    (calculColumnOffsetFrom m schemaInfo n i tune).isSome := by
  induction n generalizing i tune with
  | zero => rfl
  | succ n ih =>
    have hi : i < (keyFirst columnList).length := by omega
    obtain ⟨column, hColumn⟩ : ∃ column, (keyFirst columnList)[i]? = some column := ⟨_, List.getElem?_eq_getElem hi⟩
    have hType : schemaInfo.columnType[i]? = some column.type := by rw [h.columnType, List.getElem?_map, hColumn]; rfl
    have hLength : schemaInfo.columnLength[i]? = some column.length := by
      rw [h.columnLength, List.getElem?_map, hColumn]; rfl
    have hRange : i < schemaInfo.columnLength.length := by rwa [h.columnLength, List.length_map]
    have hOffset : schemaInfo.columnOffset[i]? = some (schemaInfo.columnLength.take i).sum := by
      rw [h.columnOffset, List.getElem?_append_left (by simpa [startsOf] using hRange), startsOf, List.getElem?_map,
        List.getElem?_range hRange, Option.map_some]
    have hNext : (schemaInfo.columnLength.take (i + 1)).sum = (schemaInfo.columnLength.take i).sum + column.length := by
      rw [List.take_add_one, hLength, List.sum_append]
      simp
    have hIn : column ∈ columnList := (keyFirst_perm columnList).mem_iff.mp (List.mem_of_getElem? hColumn)
    have hByte : ∀ j : Int, 0 ≤ j → byteAt m j = some (m j.toNat) := fun j hj => if_pos hj
    have hRest : ∀ tune start : Int, 0 ≤ (schemaInfo.columnLength.take (i + 1)).sum + tune →
        ((calculColumnOffsetFrom m schemaInfo n (i + 1) tune).bind fun rest => pure (start :: rest)).isSome := by
      intro tune start hTune
      obtain ⟨rest, hRest⟩ := Option.isSome_iff_exists.mp (ih (by omega) hTune)
      rw [hRest]
      rfl
    rw [calculColumnOffsetFrom, hType, hLength, hOffset]
    simp only [Option.bind_eq_bind, Option.bind_some]
    -- the tune takes the length of the schema back, so that the next column starts behind the bytes of this one
    split
    · split
      · rw [hByte _ hStart]
        exact hRest _ _ (by rw [hNext]; omega)
      · rw [hByte _ hStart, hByte _ (by omega)]
        exact hRest _ _ (by rw [hNext]; omega)
    · rename_i hFixed
      have hPositive := hLengths column hIn hFixed
      exact hRest _ _ (by rw [hNext]; omega)

theorem columnOffsetList_isSome (row : Bytes) : (columnOffsetList row schemaInfo).isSome := by
  rw [columnOffsetList]
  split
  · have hCount : 0 + schemaInfo.columnName.length = (keyFirst columnList).length := by rw [h.columnName]; simp
    have hSome : (calculColumnOffset (ofBytes row) schemaInfo).isSome :=
      calculColumnOffsetFrom_isSome h hLengths (ofBytes row) hCount (Int.add_nonneg le_rfl le_rfl)
    obtain ⟨offsets, hOffsets⟩ := Option.isSome_iff_exists.mp hSome
    rw [hOffsets]
    rfl
  · rfl

end Parsed

/-- Every offset is the sum of the encoded lengths in front of it, and the difference to the next one is the encoded
length. Without columns of variable length the offsets are those of the schema, with the closing one if it has it. -/
theorem calculColumnOffset_encodedLengths (m : Mem) (schemaInfo : SchemaInfo) (columns : List Column) (row : Bytes)
    (h : LaidOut schemaInfo columns row) (hRow : read m 0 row.length = row) :
    ∃ offsets, calculColumnOffset m schemaInfo = some offsets ∧ offsets.length = columns.length ∧
      (∀ i c, columns[i]? = some c →
        let start : Nat := ((columns.take i).map fun c => c.encoded.length).sum
        (offsets ++ [(row.length : Int)])[i]? = some (start : Int) ∧
          (offsets ++ [(row.length : Int)])[i + 1]? = some ((start + c.encoded.length : Nat) : Int)) ∧
      ((∀ c ∈ columns, c.type ≠ .varString) →
        offsets = schemaInfo.columnOffset.take columns.length ∧
          (schemaInfo.columnOffset = startsOf schemaInfo.columnLength ++ [schemaInfo.columnLength.sum] →
            offsets ++ [(row.length : Int)] = schemaInfo.columnOffset)) := by
  have hLength : encodedLength columns = row.length := by rw [h.row, encodedLength]
  refine ⟨columnStarts columns, calculColumnOffset_laidOut h hRow, length_columnStarts columns, ?_, ?_⟩
  · intro i c hColumn
    obtain ⟨before, after, rfl, rfl⟩ := exists_split_of_getElem? hColumn
    have hStarts := columnStarts_at before after c
    rw [hLength] at hStarts
    rw [List.take_left, ← encodedLength_eq_sum]
    exact hStarts
  · intro hFixed
    have hStarts := columnStarts_of_fixed h hFixed
    refine ⟨hStarts, fun hOffsets => ?_⟩
    have hCount : (startsOf schemaInfo.columnLength).length = columns.length := by simp [startsOf, h.lengths]
    rw [hStarts, hOffsets, List.take_left' hCount, h.lengths, sum_lengths_of_fixed h.stored hFixed, hLength]

def noteColumns : List ColumnEntry := [⟨bytesOf "note", .varString, 10, false⟩, ⟨bytesOf "id", .int32, 4, true⟩]

/-- The row of `id` 7 and the note `hi`. -/
theorem note_offsets :
    ∃ offsets, calculColumnOffset (ofBytes [7, 0, 0, 0, 2, 104, 105]) (parseSchemaInfo noteColumns 256) = some offsets ∧
      (offsets ++ [7])[1]? = some 4 ∧ (offsets ++ [7])[2]? = some 7 := by
  have hParsed := parsedSchema noteColumns 256 (by decide) (by decide)
  have hRow :=
    schemaRow_of_parsed hParsed [⟨.int32, 4, [7, 0, 0, 0]⟩, ⟨.varString, 10, [104, 105]⟩] (by decide) (by decide)
    (by simp [Column.Stored, lengthWidth])
  obtain ⟨offsets, hOffsets, -, hAt, -⟩ := calculColumnOffset_encodedLengths _ _ _ _ hRow.toLaidOut (read_ofBytes _)
  exact ⟨offsets, hOffsets, hAt 1 _ rfl⟩

end CsdWorker.RowLayout
