import CsdWorker.RawDataHandler

/-! # Rows as the schema lays them out

A row is the concatenation of its columns. The offsets of the schema are those of columns of the declared
length; `calcul_column_offset` corrects them by the lengths that are stored.
-/

namespace CsdWorker.RowLayout

open Memory Endian

set_option autoImplicit false

/-- A column of a row: its entry in the schema and what is stored. -/
structure Column where
  type : MySQLDataType
  length : Int
  payload : Bytes

def lengthWidth (length : Int) : Nat := if length < 256 then 1 else 2

namespace Column

def encoded (c : Column) : Bytes :=
  if c.type = .varString then natLe (lengthWidth c.length) c.payload.length ++ c.payload else c.payload

/-- The stored length can be expressed; a column without one has the declared length. -/
def Stored (c : Column) : Prop :=
  if c.type = .varString then c.payload.length < 256 ^ lengthWidth c.length else (c.payload.length : Int) = c.length

end Column

structure LaidOut (schemaInfo : SchemaInfo) (columns : List Column) (row : Bytes) : Prop where
  names : schemaInfo.columnName.length = columns.length
  types : schemaInfo.columnType = columns.map Column.type
  lengths : schemaInfo.columnLength = columns.map Column.length
  offsets : ∀ i < columns.length, schemaInfo.columnOffset[i]? = some ((columns.take i).map Column.length).sum
  stored : ∀ c ∈ columns, c.Stored
  row : row = columns.flatMap Column.encoded

def encodedLength (columns : List Column) : Nat := (columns.flatMap Column.encoded).length

theorem encodedLength_concat (columns : List Column) (c : Column) :
    encodedLength (columns ++ [c]) = encodedLength columns + c.encoded.length := by
  rw [encodedLength, List.flatMap_append, List.length_append, List.flatMap_singleton, encodedLength]

theorem length_encoded_varString {c : Column} (h : c.type = .varString) :
    c.encoded.length = lengthWidth c.length + c.payload.length := by
  rw [Column.encoded, if_pos h, List.length_append, length_natLe]

theorem byteAt_natCast (m : Mem) (n : Nat) : byteAt m n = some (m n) := if_pos (Int.natCast_nonneg n)

section Offsets
variable {m : Mem} {start : Nat} {c : Column}

theorem leNat_storedLength (hType : c.type = .varString) (hStored : c.Stored)
    (hRead : read m start c.encoded.length = c.encoded) :
    leNat (read m start (lengthWidth c.length)) = c.payload.length := by
  rw [Column.Stored, if_pos hType] at hStored
  have hPart := read_of_prefix hRead 0 (lengthWidth c.length) (by rw [length_encoded_varString hType]; omega)
  rw [Nat.add_zero, List.drop_zero, Column.encoded, if_pos hType,
    List.take_left' (length_natLe (lengthWidth c.length) c.payload.length)] at hPart
  rw [hPart, leNat_natLe, Nat.mod_eq_of_lt hStored]

/-- The correction grows by what the column is longer than declared; `next` is the rest of the loop. -/
theorem tune_step {β : Type} (hStored : c.Stored) (hRead : read m start c.encoded.length = c.encoded) (tune : Int)
    (next : Int → Option β) :
    (if c.type = .varString then
      if c.length < 256 then (byteAt m start).bind fun varLen => next (tune + (varLen.toNat + 1 - c.length))
      else
        (byteAt m start).bind fun low =>
          (byteAt m (start + 1)).bind fun high => next (tune + (leNat [low, high] + 2 - c.length))
    else next tune) = next (tune + (c.encoded.length - c.length)) := by
  by_cases hType : c.type = .varString
  · have hLength := leNat_storedLength hType hStored hRead
    rw [if_pos hType, length_encoded_varString hType, ← hLength]
    by_cases hShort : c.length < 256
    · rw [if_pos hShort, lengthWidth, if_pos hShort, byteAt_natCast, Option.bind_some]
      change _ = next (tune + (((1 + leNat [m start] : Nat) : Int) - c.length))
      simp only [leNat]
      congr 1
      omega
    · have hNext : byteAt m ((start : Int) + 1) = some (m (start + 1)) := byteAt_natCast m (start + 1)
      rw [if_neg hShort, lengthWidth, if_neg hShort, byteAt_natCast, hNext, Option.bind_some, Option.bind_some]
      change _ = next (tune + (((2 + leNat [m start, m (start + 1)] : Nat) : Int) - c.length))
      congr 1
      omega
  · rw [Column.Stored, if_neg hType] at hStored
    rw [if_neg hType, Column.encoded, if_neg hType, hStored, sub_self, add_zero]

end Offsets

section LaidOut
variable {m : Mem} {schemaInfo : SchemaInfo} {before after : List Column} {c : Column} {row : Bytes}

/-- The offset of every column in the row. -/
def columnStarts (columns : List Column) : List Int := (rowStarts 0 (columns.map Column.encoded)).map Nat.cast

theorem LaidOut.read_column (h : LaidOut schemaInfo (before ++ c :: after) row) (hRow : read m 0 row.length = row) :
    read m (encodedLength before) c.encoded.length = c.encoded := by
  have hSplit : row = before.flatMap Column.encoded ++ (c.encoded ++ after.flatMap Column.encoded) := by
    rw [h.row, List.flatMap_append, List.flatMap_cons]
  have hPart := read_of_prefix hRow (encodedLength before) c.encoded.length (by
    rw [hSplit, encodedLength, List.length_append, List.length_append]
    omega)
  rw [Nat.zero_add] at hPart
  rw [hPart, hSplit, encodedLength, List.drop_left, List.take_left]

theorem LaidOut.entry (h : LaidOut schemaInfo (before ++ c :: after) row) :
    schemaInfo.columnType[before.length]? = some c.type ∧ schemaInfo.columnLength[before.length]? = some c.length ∧
      schemaInfo.columnOffset[before.length]? = some (before.map Column.length).sum := by
  have hColumn : (before ++ c :: after)[before.length]? = some c := by simp
  refine ⟨?_, ?_, ?_⟩
  · rw [h.types, List.getElem?_map, hColumn, Option.map_some]
  · rw [h.lengths, List.getElem?_map, hColumn, Option.map_some]
  · rw [h.offsets before.length (by simp), List.take_left]

variable (before) in
theorem calculColumnOffsetFrom_laidOut (h : LaidOut schemaInfo (before ++ after) row)
    (hRow : read m 0 row.length = row) :
    calculColumnOffsetFrom m schemaInfo after.length before.length
        (encodedLength before - (before.map Column.length).sum) =
      some ((rowStarts (encodedLength before) (after.map Column.encoded)).map Nat.cast) := by
  induction after generalizing before with
  | nil => rfl
  | cons c after ih =>
    obtain ⟨hType, hLength, hOffset⟩ := h.entry
    have hStart : (before.map Column.length).sum + ((encodedLength before : Int) - (before.map Column.length).sum) =
        encodedLength before := by omega
    have hStored := h.stored c (List.mem_append_right _ List.mem_cons_self)
    have hRest := ih (before ++ [c]) (by rwa [List.append_assoc])
    rw [encodedLength_concat, List.length_append, List.length_singleton, List.map_append, List.sum_append,
      List.map_singleton, List.sum_singleton] at hRest
    have hTune : (encodedLength before : Int) - (before.map Column.length).sum + (c.encoded.length - c.length) =
        (encodedLength before + c.encoded.length : Nat) - ((before.map Column.length).sum + c.length) := by
      push_cast
      ring
    rw [List.length_cons, calculColumnOffsetFrom, hType, hLength, hOffset]
    simp only [Option.bind_eq_bind, Option.pure_def, Option.bind_some, hStart]
    refine (tune_step hStored (h.read_column hRow) _ fun tune =>
      (calculColumnOffsetFrom m schemaInfo after.length (before.length + 1) tune).bind fun rest =>
        some ((encodedLength before : Int) :: rest)).trans ?_
    rw [hTune, hRest, Option.bind_some]
    rfl

/-- The computed offsets are where the columns start. -/
theorem calculColumnOffset_laidOut {columns : List Column} (h : LaidOut schemaInfo columns row)
    (hRow : read m 0 row.length = row) : calculColumnOffset m schemaInfo = some (columnStarts columns) := by
  rw [calculColumnOffset, h.names]
  exact calculColumnOffsetFrom_laidOut [] h hRow

theorem columnStarts_at (before after : List Column) (c : Column) :
    (columnStarts (before ++ c :: after) ++ [(encodedLength (before ++ c :: after) : Int)])[before.length]? =
        some (encodedLength before : Int) ∧
      (columnStarts (before ++ c :: after) ++ [(encodedLength (before ++ c :: after) : Int)])[before.length + 1]? =
        some ((encodedLength before + c.encoded.length : Nat) : Int) := by
  have hLength : (columnStarts (before ++ c :: after)).length = before.length + 1 + after.length := by
    simp [columnStarts, Nat.add_assoc, Nat.add_comm 1]
  have hStart : ∀ i ≤ before.length + after.length, (columnStarts (before ++ c :: after))[i]? =
      some (encodedLength ((before ++ c :: after).take i) : Int) := by
    intro i hi
    rw [columnStarts, List.getElem?_map, getElem?_rowStarts 0 _ (by simp; omega), Option.map_some, Nat.zero_add,
      ← List.map_take, ← List.flatMap_def, encodedLength]
  constructor
  · rw [List.getElem?_append_left (by omega), hStart _ (by omega), List.take_left]
  · cases after with
    | nil =>
      rw [List.getElem?_append_right (by rw [hLength]; rfl), hLength]
      simp [encodedLength_concat]
    | cons next after =>
      have hTake : (before ++ c :: next :: after).take (before.length + 1) = before ++ [c] := by
        rw [List.append_cons]
        exact List.take_left' (by simp)
      rw [List.getElem?_append_left (by rw [hLength]; simp), hStart _ (by simp), hTake, encodedLength_concat]

end LaidOut

end CsdWorker.RowLayout
