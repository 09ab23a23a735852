import CsdWorker.Lib.Memory

/-! # Snippets, results and their row buffers

`config.h`, `keti_type.h` and `data_structure.h`. A `std::string` is its list of bytes. An
enumeration that arrives as a JSON integer keeps one constructor for the integers outside it.
-/

namespace CsdWorker

open Memory

set_option autoImplicit false

def numOfBlocks : Nat := 100

def bufferSize : Nat := numOfBlocks * 4096

inductive MySQLDataType where
  | byte | int16 | int32 | int64 | float32 | double | newDecimal | date | timestamp | string
  | varString | undefined (code : Int)
  deriving DecidableEq, Repr

inductive KetiSelectType where
  | colName | sum | avg | count | countStar | countDistinct | top | min | max
  | undefined (code : Int)
  deriving DecidableEq, Repr

inductive KetiValueType where
  | int8 | int16 | int32 | int64 | float32 | double | decimal | date | timestamp | string
  | column | operator | boolean | undefined (code : Int)
  deriving DecidableEq, Repr

inductive KetiOperType where
  | ge | le | gt | lt | eq | ne | like | notLike | between | inList | notIn | is | isNot
  | and | or | undefined (code : Int)
  deriving DecidableEq, Repr

structure Operand where
  types : List KetiValueType
  values : List Bytes
  deriving DecidableEq, Repr

structure Projectioning where
  selectType : KetiSelectType
  expression : Operand
  deriving DecidableEq, Repr

structure Filtering where
  lv : Operand
  operator : KetiOperType
  rv : Operand
  deriving DecidableEq, Repr

structure QueryInfo where
  filtering : List Filtering
  projection : List Projectioning
  deriving DecidableEq, Repr

structure SchemaInfo where
  columnName : List Bytes
  columnOffset : List Int
  columnLength : List Int
  columnType : List MySQLDataType
  columnIndexMap : List (Bytes × Nat)
  pkColumn : List Bytes
  tableIndexNumber : Int
  hasVarChar : Bool
  deriving DecidableEq, Repr

structure Block where
  offset : List Nat
  length : List Nat
  deriving DecidableEq, Repr

structure BlockInfo where
  sstList : List Bytes
  blockList : List Block
  deriving DecidableEq, Repr

structure ResultInfo where
  tableAlias : Bytes := []
  columnAlias : List Bytes := []
  returnColumnType : List Int := []
  returnColumnLength : List Int := []
  totalBlockCount : Int := 0
  csdBlockCount : Int
  deriving DecidableEq, Repr

structure Snippet where
  queryId : Int
  workId : Int
  queryInfo : QueryInfo
  schemaInfo : SchemaInfo
  blockInfo : BlockInfo
  resultInfo : ResultInfo
  deriving DecidableEq, Repr

structure Data where
  rawData : Mem
  rowOffset : List Nat
  dataLength : Nat
  rowCount : Nat
  currentBlockCount : Int
  scannedRowCount : Nat
  filteredRowCount : Nat

/-- A null `shared_ptr` is `none`; `std::map::operator[]` can make such a result. -/
structure CsdResult where
  snippet : Option Snippet
  data : Data

namespace Data

/-- The state after the constructor and after `clear`. The constructor leaves the bytes of
`raw_data` indeterminate, and no byte past `data_length` is ever part of a row. -/
def clear : Data :=
  { rawData := zeroed, rowOffset := [], dataLength := 0, rowCount := 0, currentBlockCount := 0,
    scannedRowCount := 0, filteredRowCount := 0 }

/-- The append that every layer writes out: offset, `memcpy`, length, count. -/
def pushRow (d : Data) (row : Bytes) : Data :=
  { d with
    rowOffset := d.rowOffset ++ [d.dataLength]
    rawData := write d.rawData d.dataLength row
    dataLength := d.dataLength + row.length
    rowCount := d.rowCount + 1 }

def pushEnd (d : Data) : Data := { d with rowOffset := d.rowOffset ++ [d.dataLength] }

/-- The bytes the filter and the projection copy out for row `i`. -/
def rowAt (d : Data) (i : Nat) : Bytes :=
  read d.rawData (d.rowOffset.getD i 0) (d.rowOffset.getD (i + 1) 0 - d.rowOffset.getD i 0)

def rows (d : Data) : List Bytes := (List.range d.rowCount).map d.rowAt

/-- A message to Return has no closing offset: its last row runs to `data_length`. -/
def messageRows (d : Data) : List Bytes := d.pushEnd.rows

end Data

theorem exists_split_of_getElem? {α : Type} {l : List α} {i : Nat} {a : α} (h : l[i]? = some a) :
    ∃ before after, l = before ++ a :: after ∧ before.length = i := by
  obtain ⟨hi, rfl⟩ := List.getElem?_eq_some_iff.mp h
  exact ⟨l.take i, l.drop (i + 1), by simp, List.length_take_of_le hi.le⟩

def rowStarts : Nat → List Bytes → List Nat
  | _, [] => []
  | start, row :: rows => start :: rowStarts (start + row.length) rows

@[simp] theorem length_rowStarts (start : Nat) (rows : List Bytes) :
    (rowStarts start rows).length = rows.length := by
  induction rows generalizing start with
  | nil => rfl
  | cons row rows ih => simp [rowStarts, ih]

theorem rowStarts_append (start : Nat) (xs ys : List Bytes) :
    rowStarts start (xs ++ ys) = rowStarts start xs ++ rowStarts (start + xs.flatten.length) ys := by
  induction xs generalizing start with
  | nil => simp [rowStarts]
  | cons x xs ih => simp [rowStarts, ih, Nat.add_assoc]

theorem getElem?_rowStarts (start : Nat) (rows : List Bytes) {i : Nat} (hi : i < rows.length) :
    (rowStarts start rows)[i]? = some (start + (rows.take i).flatten.length) := by
  induction rows generalizing start i with
  | nil => simp at hi
  | cons row rows ih =>
    cases i with
    | zero => simp [rowStarts]
    | succ i =>
      rw [rowStarts, List.getElem?_cons_succ, ih _ (by simpa using hi)]
      simp [Nat.add_assoc]

namespace Data

/-- `d` is an open batch that holds exactly `rows`. -/
structure Holds (d : Data) (rows : List Bytes) : Prop where
  rowOffset : d.rowOffset = rowStarts 0 rows
  dataLength : d.dataLength = rows.flatten.length
  rowCount : d.rowCount = rows.length
  bytes : read d.rawData 0 d.dataLength = rows.flatten

/-- `d` is a batch closed by `pushEnd`, as the scan and the filter hand it on. -/
structure Sealed (d : Data) (rows : List Bytes) : Prop where
  rowOffset : d.rowOffset = rowStarts 0 rows ++ [rows.flatten.length]
  dataLength : d.dataLength = rows.flatten.length
  rowCount : d.rowCount = rows.length
  bytes : read d.rawData 0 d.dataLength = rows.flatten

theorem holds_clear : clear.Holds [] := ⟨rfl, rfl, rfl, rfl⟩

theorem Holds.pushRow {d : Data} {rows : List Bytes} (h : d.Holds rows) (row : Bytes) :
    (d.pushRow row).Holds (rows ++ [row]) where
  rowOffset := by
    rw [rowStarts_append, Data.pushRow, h.rowOffset, h.dataLength]
    simp [rowStarts]
  dataLength := by simp [Data.pushRow, h.dataLength]
  rowCount := by simp [Data.pushRow, h.rowCount]
  bytes := by
    simp only [Data.pushRow, List.flatten_append, List.flatten_cons, List.flatten_nil, List.append_nil]
    rw [read_write_append, h.bytes]

theorem Holds.pushEnd {d : Data} {rows : List Bytes} (h : d.Holds rows) : d.pushEnd.Sealed rows where
  rowOffset := by rw [Data.pushEnd, h.rowOffset, h.dataLength]
  dataLength := h.dataLength
  rowCount := h.rowCount
  bytes := h.bytes

theorem Sealed.getD_rowOffset {d : Data} {rows : List Bytes} (h : d.Sealed rows) {i : Nat}
    (hi : i ≤ rows.length) : d.rowOffset.getD i 0 = (rows.take i).flatten.length := by
  rw [h.rowOffset, List.getD_eq_getElem?_getD]
  rcases Nat.lt_or_eq_of_le hi with hi | rfl
  · rw [List.getElem?_append_left (by simpa using hi), getElem?_rowStarts 0 rows hi]
    simp
  · rw [List.getElem?_append_right (by simp)]
    simp

theorem Sealed.rowAt_append {d : Data} {before after : List Bytes} {row : Bytes}
    (h : d.Sealed (before ++ row :: after)) : d.rowAt before.length = row := by
  have hStart := h.getD_rowOffset (i := before.length) (by simp)
  have hStop := h.getD_rowOffset (i := before.length + 1) (by simp)
  rw [List.take_left] at hStart
  rw [List.take_append, List.take_of_length_le (by omega), Nat.add_sub_cancel_left,
    List.take_succ_cons, List.take_zero, List.flatten_append, List.length_append,
    List.flatten_singleton] at hStop
  have hRead := read_of_prefix h.bytes before.flatten.length row.length (by rw [h.dataLength]; simp)
  rw [Data.rowAt, hStart, hStop, Nat.add_sub_cancel_left, ← Nat.zero_add before.flatten.length, hRead]
  rw [List.flatten_append, List.flatten_cons, List.drop_left, List.take_left]

theorem Sealed.rowAt {d : Data} {rows : List Bytes} (h : d.Sealed rows) {i : Nat}
    (hi : i < rows.length) : d.rowAt i = rows[i] := by
  have hSplit : rows.take i ++ rows[i] :: rows.drop (i + 1) = rows := by simp
  have hRow := (hSplit.symm ▸ h : d.Sealed (rows.take i ++ rows[i] :: rows.drop (i + 1))).rowAt_append
  rwa [List.length_take_of_le (by omega)] at hRow

theorem Sealed.rows_eq {d : Data} {rows : List Bytes} (h : d.Sealed rows) : d.rows = rows := by
  apply List.ext_getElem
  · simp [Data.rows, h.rowCount]
  · intro i _ hi
    simp [Data.rows, h.rowAt hi]

theorem Holds.messageRows_eq {d : Data} {rows : List Bytes} (h : d.Holds rows) : d.messageRows = rows :=
  h.pushEnd.rows_eq

theorem Sealed.monotone {d : Data} {rows : List Bytes} (h : d.Sealed rows) : d.rowOffset.Pairwise (· ≤ ·) := by
  have hStarts : ∀ (start : Nat) (xs : List Bytes),
      (∀ n ∈ rowStarts start xs, start ≤ n ∧ n ≤ start + xs.flatten.length) ∧
        (rowStarts start xs).Pairwise (· ≤ ·) := by
    intro start xs
    induction xs generalizing start with
    | nil => simp [rowStarts]
    | cons x xs ih =>
      obtain ⟨hBound, hPairwise⟩ := ih (start + x.length)
      constructor
      · intro n hn
        rcases List.mem_cons.mp hn with rfl | hn
        · exact ⟨le_rfl, Nat.le_add_right _ _⟩
        · have := hBound n hn
          simp only [List.flatten_cons, List.length_append]
          omega
      · exact List.pairwise_cons.mpr ⟨fun n hn => by have := hBound n hn; omega, hPairwise⟩
  obtain ⟨hBound, hPairwise⟩ := hStarts 0 rows
  rw [h.rowOffset, List.pairwise_append]
  refine ⟨hPairwise, by simp, ?_⟩
  intro a ha b hb
  rw [List.mem_singleton] at hb
  have := hBound a ha
  omega

end Data

end CsdWorker
