import CsdWorker.BlockScan

/-! # What one block adds to the batch

One call of `read_data_block` puts the rows of the table behind the rows that the batch has already, and then keeps the
batch or hands it on. It does not look whether `raw_data` has room for them.
-/

namespace CsdWorker.Scan

open Memory

set_option autoImplicit false

/-- `after` has the rows of `before` and then `rows`. -/
structure Appended (before : Data) (rows : List Bytes) (after : Data) : Prop where
  rowOffset : after.rowOffset = before.rowOffset ++ rowStarts before.dataLength rows
  rawData : after.rawData = write before.rawData before.dataLength rows.flatten
  dataLength : after.dataLength = before.dataLength + rows.flatten.length
  rowCount : after.rowCount = before.rowCount + rows.length
  scannedRowCount : after.scannedRowCount = before.scannedRowCount + rows.length

/-- The batch is extended by `rows`, and kept or closed, handed on and emptied. -/
inductive Extends (snippet : Snippet) (s : ScanState) (rows : List Bytes) : ScanState → Prop
  | kept {data : Data} {left : Int} (h : Appended s.data rows data) : Extends snippet s rows ⟨data, left, s.enqueued⟩
  | handedOn {batch : Data} {left : Int} (h : Appended s.data rows batch) :
    Extends snippet s rows ⟨Data.clear, left, s.enqueued ++ [enqueueScanResult snippet batch.pushEnd]⟩

theorem appended_nil (d : Data) : Appended d [] d :=
  ⟨by rw [rowStarts, List.append_nil], by rw [List.flatten_nil, write_nil], rfl, rfl, rfl⟩

theorem Appended.cons {d after : Data} {row : Bytes} {rows : List Bytes}
    (h : Appended (appendScannedRow d row) rows after) : Appended d (row :: rows) after where
  rowOffset := by
    rw [h.rowOffset, rowStarts, List.append_cons]
    rfl
  rawData := by
    rw [h.rawData, List.flatten_cons, ← write_append]
    rfl
  dataLength := by
    rw [h.dataLength, List.flatten_cons, List.length_append, ← Nat.add_assoc]
    rfl
  rowCount := by
    rw [h.rowCount, List.length_cons, Nat.add_comm rows.length, ← Nat.add_assoc]
    rfl
  scannedRowCount := by
    rw [h.scannedRowCount, List.length_cons, Nat.add_comm rows.length, ← Nat.add_assoc]
    rfl

theorem appended_appendRows (rows : List Bytes) (d : Data) : Appended d rows (appendRows d rows) := by
  induction rows generalizing d with
  | nil => exact appended_nil d
  | cons row rows ih => exact (ih (appendScannedRow d row)).cons

/-- How many blocks the batch is charged with says nothing about its rows. -/
theorem Appended.charge {d after : Data} {rows : List Bytes} (h : Appended d rows after) (blocks : Int) :
    Appended d rows { after with currentBlockCount := blocks } :=
  ⟨h.rowOffset, h.rawData, h.dataLength, h.rowCount, h.scannedRowCount⟩

section Unique
variable {snippet : Snippet} {rows rows' : List Bytes}

/-- The offsets of a closed batch whose first row starts at `start`. -/
def closedOffsets (start : Nat) (rows : List Bytes) : List Nat := rowStarts start rows ++ [start + rows.flatten.length]

theorem closedOffsets_cons (start : Nat) (row : Bytes) (rows : List Bytes) :
    closedOffsets start (row :: rows) = start :: closedOffsets (start + row.length) rows := by
  rw [closedOffsets, closedOffsets, rowStarts, List.flatten_cons, List.length_append, Nat.add_assoc, List.cons_append]

theorem head?_closedOffsets (start : Nat) (rows : List Bytes) : (closedOffsets start rows).head? = some start := by
  cases rows with
  | nil => rfl
  | cons row rows => rw [closedOffsets_cons, List.head?_cons]

theorem length_closedOffsets (start : Nat) (rows : List Bytes) :
    (closedOffsets start rows).length = rows.length + 1 := by
  rw [closedOffsets, List.length_append, length_rowStarts, List.length_singleton]

/-- The offsets and the bytes determine the rows. -/
theorem eq_of_closedOffsets {start : Nat} (hOffsets : closedOffsets start rows = closedOffsets start rows')
    (hBytes : rows.flatten = rows'.flatten) : rows = rows' := by
  have hLength := congrArg List.length hOffsets
  rw [length_closedOffsets, length_closedOffsets] at hLength
  induction rows generalizing rows' start with
  | nil => exact (List.length_eq_zero_iff.mp (Nat.succ_inj.mp hLength).symm).symm
  | cons row rows ih =>
    cases rows' with
    | nil => cases hLength
    | cons row' rows' =>
      rw [closedOffsets_cons, closedOffsets_cons, List.cons_inj_right] at hOffsets
      have hStart := congrArg List.head? hOffsets
      rw [head?_closedOffsets, head?_closedOffsets, Option.some_inj] at hStart
      have hRow : row.length = row'.length := Nat.add_left_cancel hStart
      rw [List.flatten_cons, List.flatten_cons] at hBytes
      obtain ⟨rfl, hRest⟩ := List.append_inj hBytes hRow
      rw [ih hOffsets hRest (Nat.succ_inj.mp hLength)]

theorem Appended.unique {d after : Data} (h : Appended d rows after) (h' : Appended d rows' after) : rows = rows' := by
  have hLength : rows.flatten.length = rows'.flatten.length :=
    Nat.add_left_cancel (h.dataLength.symm.trans h'.dataLength)
  have hStarts := List.append_cancel_left (h.rowOffset.symm.trans h'.rowOffset)
  have hOffsets : closedOffsets d.dataLength rows = closedOffsets d.dataLength rows' := by
    rw [closedOffsets, closedOffsets, hStarts, hLength]
  refine eq_of_closedOffsets hOffsets ?_
  have hRead := read_write_self d.rawData d.dataLength rows.flatten
  rw [← h.rawData, h'.rawData, hLength, read_write_self] at hRead
  exact hRead.symm

theorem enqueueScanResult_data (snippet : Snippet) (data : Data) :
    ∃ n, (enqueueScanResult snippet data).result.data = { data with filteredRowCount := n } := by
  rw [enqueueScanResult]
  split
  · exact ⟨data.scannedRowCount, rfl⟩
  · exact ⟨data.filteredRowCount, rfl⟩

theorem Appended.of_enqueued {d batch batch' : Data} (h : Appended d rows batch)
    (hSame : enqueueScanResult snippet batch.pushEnd = enqueueScanResult snippet batch'.pushEnd) :
    Appended d rows batch' := by
  obtain ⟨n, hData⟩ := enqueueScanResult_data snippet batch.pushEnd
  obtain ⟨n', hData'⟩ := enqueueScanResult_data snippet batch'.pushEnd
  rw [hSame, hData'] at hData
  simp only [Data.pushEnd, Data.mk.injEq] at hData
  obtain ⟨hBytes, hOffsets, hLength, hRows, -, hScanned, -⟩ := hData
  rw [hLength] at hOffsets
  exact ⟨(List.append_cancel_right hOffsets).trans h.rowOffset, hBytes.trans h.rawData, hLength.trans h.dataLength,
    hRows.trans h.rowCount, hScanned.trans h.scannedRowCount⟩

theorem Extends.inv {s s' : ScanState} (h : Extends snippet s rows s') :
    (s'.enqueued = s.enqueued ∧ Appended s.data rows s'.data) ∨
      ∃ batch, s'.enqueued = s.enqueued ++ [enqueueScanResult snippet batch.pushEnd] ∧ Appended s.data rows batch := by
  cases h with
  | kept h => exact Or.inl ⟨rfl, h⟩
  | handedOn h => exact Or.inr ⟨_, rfl, h⟩

theorem Extends.unique {s s' : ScanState} (h : Extends snippet s rows s') (h' : Extends snippet s rows' s') :
    rows = rows' := by
  obtain ⟨hNone, hKept⟩ | ⟨batch, hOne, hBatch⟩ := h.inv
  · obtain ⟨-, hKept'⟩ | ⟨batch', hOne', -⟩ := h'.inv
    · exact hKept.unique hKept'
    · rw [hNone] at hOne'
      simp at hOne'
  · obtain ⟨hNone', -⟩ | ⟨batch', hOne', hBatch'⟩ := h'.inv
    · rw [hOne] at hNone'
      simp at hNone'
    · have hSame := List.append_cancel_left (hOne.symm.trans hOne')
      exact (hBatch.of_enqueued (List.singleton_inj.mp hSame)).unique hBatch'

end Unique

section Loop
variable {snippet : Snippet}

theorem convertible_of_isSome (hInt : IntNumber snippet) {block : SortedEntries} {s : ScanState}
    (h : (readDataBlock snippet block s).isSome) : Convertible snippet block := by
  obtain ⟨s', hRead⟩ := Option.isSome_iff_exists.mp h
  rw [readDataBlock_eq_scanBlock, scanBlock_eq_some_iff] at hRead
  obtain ⟨rows, hOwn, -, -⟩ := hRead
  have hRows := isSome_of_mapM (Option.isSome_of_eq_some hOwn)
  rw [visible, seek, ← filter_eq_takeWhile hInt block.sorted] at hRows
  intro e he hOwn
  exact hRows e (List.mem_filter.mpr ⟨he, decide_eq_true hOwn⟩)

theorem extends_countBlock {s : ScanState} {rows : List Bytes} {data : Data} (h : Appended s.data rows data) :
    Extends snippet s rows (countBlock snippet { s with data := data }) := by
  rw [countBlock]
  split
  · exact .handedOn (h.charge _)
  · exact .kept (h.charge _)

theorem blockStep_extends (s : ScanState) (block : SortedEntries) :
    Extends snippet s (blockRows snippet block) (blockStep snippet s block) := by
  have hRows := appended_appendRows (blockRows snippet block) s.data
  rw [blockStep]
  split
  · exact .handedOn (hRows.charge _)
  · exact extends_countBlock hRows

variable (snippet) in
/-- The call succeeds and adds exactly `rows` to the batch. -/
def Appends (result : Option ScanState) (s : ScanState) (rows : List Bytes) : Prop :=
  ∃ s', result = some s' ∧ Extends snippet s rows s'

end Loop

/-- The rows of the table are added once each and in key order exactly when their keys can be converted and `raw_data`
has room for them behind the rows that are there. -/
theorem readDataBlock_appends_iff (snippet : Snippet) (block : SortedEntries) (s : ScanState)
    (hInt : IntNumber snippet) :
    Appends snippet (readDataBlock snippet block s) s (blockRows snippet block) ↔
      Convertible snippet block ∧ Room s.data (blockRows snippet block) := by
  constructor
  · rintro ⟨s', hRead, -⟩
    have hConvert := convertible_of_isSome hInt (Option.isSome_of_eq_some hRead)
    exact ⟨hConvert, ((readDataBlock_eq_some_iff hInt hConvert).mp hRead).1⟩
  · rintro ⟨hConvert, hRoom⟩
    exact ⟨_, (readDataBlock_eq_some_iff hInt hConvert).mpr ⟨hRoom, rfl⟩, blockStep_extends s block⟩

/-- The second of two blocks, with the row of the first one still in the batch. -/
theorem second_order_appended :
    Appends twoBlocksSnippet (readDataBlock twoBlocksSnippet orderThenLineitem ⟨batchOf [[2, 0, 0, 0, 7, 8]], 1, []⟩)
      ⟨batchOf [[2, 0, 0, 0, 7, 8]], 1, []⟩ [[1, 0, 0, 0, 7, 8]] :=
  (readDataBlock_appends_iff twoBlocksSnippet orderThenLineitem ⟨batchOf [[2, 0, 0, 0, 7, 8]], 1, []⟩
    ⟨by decide, by decide⟩).mpr ⟨by decide, by decide⟩

section Wide
variable (orderkey : UInt8)

def wideSnippet : Snippet := ordersSnippet ⟨[], [⟨[0], List.replicate 100 4200⟩]⟩ 100

def wideValue : Bytes := List.replicate 4093 7

/-- One row of 4097 bytes. -/
def wideEntry : Entry := ⟨[0, 0, 1, 0, 0x80, 0, 0, orderkey], wideValue, four_le_ordersKey orderkey⟩

def wideRow : Bytes := [orderkey, 0, 0, 0] ++ wideValue

def wideOrder : SortedEntries := ⟨[wideEntry orderkey], List.pairwise_singleton _ _⟩

theorem length_wideRow : (wideRow orderkey).length = 4097 := by
  rw [wideRow, List.length_append, wideValue, List.length_replicate]
  rfl

theorem tableIndexNumber_wideEntry : (wideEntry orderkey).tableIndexNumber = ordersSchema.tableIndexNumber := by
  change Endian.leInt [0, 1, 0, 0] = 256
  decide

theorem scanRow_wideEntry : scanRow ordersSchema (wideEntry orderkey) = some (wideRow orderkey) := rfl

theorem blockRows_wideOrder : blockRows wideSnippet (wideOrder orderkey) = [wideRow orderkey] := by
  have hOwn : [wideEntry orderkey].filter (fun e => e.tableIndexNumber = ordersSchema.tableIndexNumber) =
      [wideEntry orderkey] := List.filter_cons_of_pos (decide_eq_true (tableIndexNumber_wideEntry orderkey))
  exact (congrArg (List.filterMap (scanRow ordersSchema)) hOwn).trans
    (List.filterMap_cons_some (scanRow_wideEntry orderkey))

theorem convertible_wideOrder : Convertible wideSnippet (wideOrder orderkey) := by
  intro e he _
  obtain rfl := List.mem_singleton.mp he
  exact Option.isSome_of_eq_some (scanRow_wideEntry orderkey)

theorem not_boundary_wideOrder : ¬Boundary wideSnippet (wideOrder orderkey) := by
  rintro ⟨e, he, hOther⟩
  obtain rfl := List.mem_singleton.mp (mem_visible he)
  exact hOther (tableIndexNumber_wideEntry orderkey)

theorem length_wideRows {rows : List Bytes} (h : ∀ row ∈ rows, row.length = 4097) :
    rows.flatten.length = rows.length * 4097 := by
  rw [List.length_flatten, List.map_congr_left h, List.map_const', List.sum_replicate, smul_eq_mul]

theorem not_room_wideRow {rows : List Bytes} (h : rows.flatten.length = 99 * 4097) (c : Int) :
    ¬Room (openBatch rows c) [wideRow orderkey] := by
  rw [room_openBatch_iff (by rw [h]; decide), h, List.flatten_singleton, length_wideRow]
  decide

end Wide

/-- Behind 99 rows of 4097 bytes there is no room for one more. -/
theorem hundredth_row_overruns :
    (openBatch (List.replicate 99 (wideRow 0)) 99).dataLength = 405603 ∧ Convertible wideSnippet (wideOrder 99) ∧
      ¬Appends wideSnippet
        (readDataBlock wideSnippet (wideOrder 99) ⟨openBatch (List.replicate 99 (wideRow 0)) 99, 1, []⟩)
        ⟨openBatch (List.replicate 99 (wideRow 0)) 99, 1, []⟩ (blockRows wideSnippet (wideOrder 99)) := by
  have hRows : ∀ row ∈ List.replicate 99 (wideRow 0), row.length = 4097 := by
    intro row hRow
    rw [List.eq_of_mem_replicate hRow, length_wideRow]
  have hLength : (List.replicate 99 (wideRow 0)).flatten.length = 99 * 4097 := by
    rw [length_wideRows hRows, List.length_replicate]
  refine ⟨(dataLength_openBatch _ _).trans hLength, convertible_wideOrder 99, ?_⟩
  rintro ⟨s', hRead, -⟩
  obtain ⟨hRoom, -⟩ := (readDataBlock_eq_some_iff ⟨by decide, by decide⟩ (convertible_wideOrder 99)).mp hRead
  rw [blockRows_wideOrder] at hRoom
  exact not_room_wideRow 99 hLength 99 hRoom

end CsdWorker.Scan
