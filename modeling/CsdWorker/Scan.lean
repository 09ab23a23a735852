import CsdWorker.Utils

/-! # What the scans share

`scan.cc`: keys, the row that is made of an entry, and the batch that is handed on. The contents of
files and blocks come from RocksDB, in key order.
-/

namespace CsdWorker.Scan

open Memory Endian

set_option autoImplicit false

/-- A stored row. Its key starts with the four bytes of the index number. -/
structure Entry where
  key : Bytes
  value : Bytes
  four_le : 4 ≤ key.length

structure SortedEntries where
  entries : List Entry
  sorted : entries.Pairwise fun a b => a.key < b.key

def generateSeekKey (number : Int) : Bytes := (intLe 4 number).reverse

def Entry.tableIndexNumber (e : Entry) : Int := leInt (e.key.take 4).reverse

/-- Bytes outside the key, and the first byte of an empty string, are not there to be used. -/
def getSlicedKey (key : Bytes) (offset : Nat) (length : Int) : Option Bytes :=
  if 0 < length ∧ offset + length ≤ key.length then some ((key.drop offset).take length.toNat) else none

def convertKeyToValueFrom (key : Bytes) (schemaInfo : SchemaInfo) : List Bytes → Nat → Option Bytes
  | [], _ => some []
  | pkColumn :: pkColumns, offset => do
    -- `operator[]` reads 0 for a missing name, now and whenever the name is read again
    let index := (schemaInfo.columnIndexMap.lookup pkColumn).getD 0
    let columnLength ← schemaInfo.columnLength[index]?
    let columnType ← schemaInfo.columnType[index]?
    match columnType with
    | .int32 => do
      let originKey ← getSlicedKey key offset columnLength
      let convertedKey ← convertKeyToValueFrom key schemaInfo pkColumns (offset + columnLength.toNat)
      pure ((originKey.modifyHead (· ^^^ 0x80)).reverse ++ convertedKey)
    | _ => convertKeyToValueFrom key schemaInfo pkColumns offset

def convertKeyToValue (key : Bytes) (schemaInfo : SchemaInfo) : Option Bytes :=
  convertKeyToValueFrom key schemaInfo schemaInfo.pkColumn 4

/-- The bytes both scans append for an entry: the converted key in front of the value if the table
has a primary key. -/
def scanRow (schemaInfo : SchemaInfo) (e : Entry) : Option Bytes :=
  if schemaInfo.pkColumn.length ≠ 0 then do
    let convertedKey ← convertKeyToValue e.key schemaInfo
    pure (convertedKey ++ e.value)
  else pure e.value

inductive Sink where
  | filter
  | projection
  deriving DecidableEq, Repr

structure Enqueued where
  sink : Sink
  result : CsdResult

def enqueueScanResult (snippet : Snippet) (data : Data) : Enqueued :=
  if data.rowCount = 0 ∨ snippet.queryInfo.filtering.length = 0 then
    ⟨.projection, ⟨some snippet, { data with filteredRowCount := data.scannedRowCount }⟩⟩
  else ⟨.filter, ⟨some snippet, data⟩⟩

theorem sink_eq_projection_iff (snippet : Snippet) (data : Data) :
    (enqueueScanResult snippet data).sink = .projection ↔ data.rowCount = 0 ∨ snippet.queryInfo.filtering = [] := by
  rw [← List.length_eq_zero_iff, enqueueScanResult]
  split
  · rename_i hBypass
    exact iff_of_true rfl hBypass
  · rename_i hFilter
    exact iff_of_false Sink.noConfusion hFilter

def appendScannedRow (data : Data) (row : Bytes) : Data :=
  { data.pushRow row with scannedRowCount := data.scannedRowCount + 1 }

/-- The copy of a row into the batch. Behind `raw_data` lie the other members of the batch, so that a copy which leaves
it has no defined outcome. -/
def copyRow (data : Data) (row : Bytes) : Option Data :=
  if data.dataLength + row.length ≤ bufferSize then some (appendScannedRow data row) else none

structure ScanState where
  data : Data
  leftBlockCount : Int
  enqueued : List Enqueued

def flushBatch (snippet : Snippet) (data : Data) (blocks : Int) : Enqueued :=
  enqueueScanResult snippet { data with currentBlockCount := data.currentBlockCount + blocks }.pushEnd

section Keys
variable (e : Entry)

theorem length_generateSeekKey (number : Int) : (generateSeekKey number).length = 4 := by
  rw [generateSeekKey, List.length_reverse, length_intLe]

theorem beNat_generateSeekKey (number : Int) : (beNat (generateSeekKey number) : Int) = number % 2 ^ 32 := by
  rw [generateSeekKey, beNat, List.reverse_reverse, intLe, leNat_natLe]
  omega

theorem key_lt_seekKey_iff (number : Int) :
    e.key < generateSeekKey number ↔ (beNat (e.key.take 4) : Int) < number % 2 ^ 32 := by
  have hTarget := beNat_generateSeekKey number
  rw [lt_iff_beNat_take_lt _ _ (by rw [length_generateSeekKey]; exact e.four_le), length_generateSeekKey]
  omega

theorem tableIndexNumber_eq_iff {number : Int} (hLow : -2 ^ 31 ≤ number) (hHigh : number < 2 ^ 31) :
    e.tableIndexNumber = number ↔ (beNat (e.key.take 4) : Int) = number % 2 ^ 32 := by
  have hLength : (e.key.take 4).reverse.length = 4 := by
    rw [List.length_reverse, List.length_take_of_le e.four_le]
  have hBound := leNat_lt (e.key.take 4).reverse
  rw [hLength] at hBound
  rw [Entry.tableIndexNumber, leInt, hLength, beNat, wrap, Int.bmod_def]
  omega

theorem key_in_bounds_iff {number : Int} (hLow : 0 ≤ number) (hHigh : number < 2 ^ 31) :
    (¬ e.key < generateSeekKey number ∧ e.key < generateSeekKey (number + 1)) ↔
      e.tableIndexNumber = number := by
  rw [key_lt_seekKey_iff, key_lt_seekKey_iff, tableIndexNumber_eq_iff e (by omega) hHigh]
  omega

theorem beNat_take_mono {a b : Entry} (h : a.key < b.key) : beNat (a.key.take 4) ≤ beNat (b.key.take 4) := by
  by_contra hLess
  have hLength : (a.key.take 4).length = 4 := List.length_take_of_le a.four_le
  have hb := lt_iff_beNat_take_lt (a.key.take 4) b.key (by rw [hLength]; exact b.four_le)
  have ha := lt_iff_beNat_take_lt (a.key.take 4) a.key (by rw [hLength]; exact a.four_le)
  rw [hLength] at hb ha
  have hBelow : b.key < a.key.take 4 := hb.mpr (by omega)
  exact Nat.lt_irrefl _ (ha.mp (List.lt_trans h hBelow))

end Keys

def batchOf (rows : List Bytes) : Data := rows.foldl appendScannedRow Data.clear

@[simp] theorem batchOf_append (rows : List Bytes) (row : Bytes) :
    batchOf (rows ++ [row]) = appendScannedRow (batchOf rows) row := by
  simp [batchOf]

theorem batchOf_holds (rows : List Bytes) : (batchOf rows).Holds rows := by
  induction rows using List.reverseRecOn with
  | nil => exact Data.holds_clear
  | append_singleton rows row ih =>
    have h := ih.pushRow row
    rw [batchOf_append]
    exact ⟨h.rowOffset, h.dataLength, h.rowCount, h.bytes⟩

theorem batchOf_counts (rows : List Bytes) :
    (batchOf rows).currentBlockCount = 0 ∧ (batchOf rows).scannedRowCount = rows.length := by
  induction rows using List.reverseRecOn with
  | nil => exact ⟨rfl, rfl⟩
  | append_singleton rows row ih =>
    rw [batchOf_append, List.length_append, ← ih.2]
    exact ⟨ih.1, rfl⟩

structure Carries (o : Enqueued) (snippet : Snippet) (rows : List Bytes) (blocks : Int) : Prop where
  snippet_eq : o.result.snippet = some snippet
  data_sealed : o.result.data.Sealed rows
  scanned : o.result.data.scannedRowCount = rows.length
  current : o.result.data.currentBlockCount = blocks

theorem enqueueScanResult_carries {snippet : Snippet} {data : Data} {rows : List Bytes} (h : data.Sealed rows)
    (hScanned : data.scannedRowCount = rows.length) :
    Carries (enqueueScanResult snippet data) snippet rows data.currentBlockCount := by
  unfold enqueueScanResult
  split
  · exact ⟨rfl, ⟨h.rowOffset, h.dataLength, h.rowCount, h.bytes⟩, hScanned, rfl⟩
  · exact ⟨rfl, h, hScanned, rfl⟩

theorem flushBatch_carries (snippet : Snippet) (rows : List Bytes) (current blocks : Int) :
    Carries (flushBatch snippet { batchOf rows with currentBlockCount := current } blocks) snippet rows
      (current + blocks) := by
  have h := (batchOf_holds rows).pushEnd
  exact enqueueScanResult_carries ⟨h.rowOffset, h.dataLength, h.rowCount, h.bytes⟩ (batchOf_counts rows).2

def ordersSchema : SchemaInfo :=
  { columnName := [bytesOf "o_orderkey"], columnOffset := [0, 4], columnLength := [4], columnType := [.int32],
    columnIndexMap := [(bytesOf "o_orderkey", 0)], pkColumn := [bytesOf "o_orderkey"], tableIndexNumber := 256,
    hasVarChar := false }

def ordersSnippet (blockInfo : BlockInfo) (csdBlockCount : Int) : Snippet :=
  { queryId := 1, workId := 0, queryInfo := { filtering := [], projection := [] }, schemaInfo := ordersSchema,
    blockInfo := blockInfo, resultInfo := { csdBlockCount := csdBlockCount } }

theorem four_le_ordersKey (orderkey : UInt8) : 4 ≤ [0, 0, 1, 0, 0x80, 0, 0, orderkey].length := by simp

def ordersEntry (orderkey : UInt8) : Entry :=
  ⟨[0, 0, 1, 0, 0x80, 0, 0, orderkey], [7, 8], four_le_ordersKey orderkey⟩

def lineitemEntry (orderkey : UInt8) : Entry := ⟨[0, 0, 1, 1, 0x80, 0, 0, orderkey], [9], by simp⟩

theorem orders_before_lineitem : [ordersEntry 1, lineitemEntry 1].Pairwise fun a b => a.key < b.key := by decide

end CsdWorker.Scan
