import CsdWorker.Lib.Packing
import CsdWorker.Scan

/-! # The scan of whole SST files

`Scan::sst_file_full_scan`. The batches it enqueues are the groups of the greedy packing of the rows
into the buffer.
-/

namespace CsdWorker.Scan

open Memory Packing

set_option autoImplicit false

def boundedIterator (lower upper : Bytes) (file : SortedEntries) : List Entry :=
  file.entries.filter fun e => !decide (e.key < lower) && decide (e.key < upper)

/-- The flush before a row that would not fit. -/
def sstFlush (snippet : Snippet) (s : ScanState) (row : Bytes) : ScanState :=
  if s.data.dataLength + row.length > bufferSize then
    { data := Data.clear
      leftBlockCount := s.leftBlockCount - 100
      enqueued := s.enqueued ++ [flushBatch snippet s.data 100] }
  else s

/-- The branches with and without a primary key differ in the row only. -/
def sstEntry (snippet : Snippet) (s : ScanState) (e : Entry) : Option ScanState := do
  let row ← scanRow snippet.schemaInfo e
  let s := sstFlush snippet s row
  let data ← copyRow s.data row
  pure { s with data := data }

def sstFile (snippet : Snippet) (file : SortedEntries) (s : ScanState) : Option ScanState :=
  let number := snippet.schemaInfo.tableIndexNumber
  (boundedIterator (generateSeekKey number) (generateSeekKey (number + 1)) file).foldlM (sstEntry snippet) s

/-- `files` gives the contents of a file by its name. -/
def sstFileFullScan (files : Bytes → SortedEntries) (snippet : Snippet) : Option (List Enqueued) := do
  let s ← snippet.blockInfo.sstList.foldlM (fun s name => sstFile snippet (files name) s)
    ⟨Data.clear, snippet.resultInfo.csdBlockCount, []⟩
  pure (s.enqueued ++ [flushBatch snippet s.data s.leftBlockCount])

/-- The entries that the iterators visit, in file and key order. -/
def scannedEntries (files : Bytes → SortedEntries) (snippet : Snippet) : List Entry :=
  let number := snippet.schemaInfo.tableIndexNumber
  snippet.blockInfo.sstList.flatMap fun name =>
    boundedIterator (generateSeekKey number) (generateSeekKey (number + 1)) (files name)

def scannedRows (files : Bytes → SortedEntries) (snippet : Snippet) : List Bytes :=
  (scannedEntries files snippet).filterMap (scanRow snippet.schemaInfo)

def tableEntries (files : Bytes → SortedEntries) (snippet : Snippet) : List Entry :=
  snippet.blockInfo.sstList.flatMap fun name =>
    (files name).entries.filter fun e => e.tableIndexNumber = snippet.schemaInfo.tableIndexNumber

def tableRows (files : Bytes → SortedEntries) (snippet : Snippet) : List Bytes :=
  (tableEntries files snippet).filterMap (scanRow snippet.schemaInfo)

def rowGroups (rows : List Bytes) : Batches Bytes := pack List.length bufferSize empty rows

def enqueuedOf (snippet : Snippet) (p : Batches Bytes) : List Enqueued :=
  p.closed.map fun rows => flushBatch snippet (batchOf rows) 100

def sstStateOf (snippet : Snippet) (p : Batches Bytes) : ScanState :=
  { data := batchOf p.opened
    leftBlockCount := snippet.resultInfo.csdBlockCount - 100 * p.closed.length
    enqueued := enqueuedOf snippet p }

def sstAppend (snippet : Snippet) (s : ScanState) (row : Bytes) : ScanState :=
  let s := sstFlush snippet s row
  { s with data := appendScannedRow s.data row }

/-- After the flush there is room for every row that the buffer can hold at all. -/
theorem copyRow_sstFlush (snippet : Snippet) (s : ScanState) {row : Bytes} (h : row.length ≤ bufferSize) :
    copyRow (sstFlush snippet s row).data row = some (appendScannedRow (sstFlush snippet s row).data row) := by
  refine if_pos ?_
  rw [sstFlush]
  split
  · exact (Nat.zero_add _).trans_le h
  · omega

theorem sstAppend_stateOf (snippet : Snippet) (p : Batches Bytes) (row : Bytes) :
    sstAppend snippet (sstStateOf snippet p) row = sstStateOf snippet (add List.length bufferSize p row) := by
  have hLength : (batchOf p.opened).dataLength = total List.length p.opened := by
    rw [(batchOf_holds p.opened).dataLength, total_length]
  rw [sstAppend, sstFlush, sstStateOf, hLength]
  by_cases h : total List.length p.opened + row.length > bufferSize
  · rw [if_pos h, add_of_overflow _ _ h]
    simp only [sstStateOf, enqueuedOf, List.map_append, List.map_cons, List.map_nil, List.length_append,
      List.length_cons, List.length_nil, ScanState.mk.injEq, and_true]
    exact ⟨rfl, by omega⟩
  · rw [if_neg h, add_of_fits _ _ (by omega), sstStateOf, batchOf_append]
    rfl

theorem foldl_sstAppend (snippet : Snippet) (rows : List Bytes) (p : Batches Bytes) :
    rows.foldl (sstAppend snippet) (sstStateOf snippet p) =
      sstStateOf snippet (pack List.length bufferSize p rows) := by
  induction rows generalizing p with
  | nil => rfl
  | cons row rows ih => rw [List.foldl_cons, sstAppend_stateOf, ih, pack_cons]

theorem foldlM_sstEntry (snippet : Snippet) {es : List Entry}
    (hRows : ∀ e ∈ es, ∃ row, scanRow snippet.schemaInfo e = some row ∧ row.length ≤ bufferSize) (s : ScanState) :
    es.foldlM (sstEntry snippet) s =
      some ((es.filterMap (scanRow snippet.schemaInfo)).foldl (sstAppend snippet) s) := by
  induction es generalizing s with
  | nil => rfl
  | cons e es ih =>
    obtain ⟨row, hRow, hLength⟩ := hRows e List.mem_cons_self
    have hEntry : sstEntry snippet s e = some (sstAppend snippet s row) := by
      simp only [sstEntry, hRow, Option.bind_eq_bind, Option.bind_some, copyRow_sstFlush snippet s hLength]
      rfl
    rw [List.foldlM_cons, hEntry, List.filterMap_cons_some hRow]
    exact ih (fun x hx => hRows x (List.mem_cons_of_mem _ hx)) _

theorem boundedIterator_eq {number : Int} (hLow : 0 ≤ number) (hHigh : number < 2 ^ 31) (file : SortedEntries) :
    boundedIterator (generateSeekKey number) (generateSeekKey (number + 1)) file =
      file.entries.filter fun e => e.tableIndexNumber = number := by
  apply List.filter_congr
  intro e _
  rw [Bool.eq_iff_iff, decide_eq_true_eq, ← key_in_bounds_iff e hLow hHigh]
  simp

theorem foldlM_sstFile (files : Bytes → SortedEntries) (snippet : Snippet) (names : List Bytes) (s : ScanState) :
    names.foldlM (fun s name => sstFile snippet (files name) s) s =
      (names.flatMap fun name => boundedIterator (generateSeekKey snippet.schemaInfo.tableIndexNumber)
        (generateSeekKey (snippet.schemaInfo.tableIndexNumber + 1)) (files name)).foldlM (sstEntry snippet) s := by
  induction names generalizing s with
  | nil => rfl
  | cons name names ih =>
    rw [List.foldlM_cons, List.flatMap_cons, List.foldlM_append, sstFile]
    exact bind_congr fun s => ih s

/-- One batch of 100 blocks a closed group, and the rest of the blocks with the open one. -/
def sstBatches (snippet : Snippet) (rows : List Bytes) : List Enqueued :=
  let p := rowGroups rows
  enqueuedOf snippet p ++
    [flushBatch snippet (batchOf p.opened) (snippet.resultInfo.csdBlockCount - 100 * p.closed.length)]

theorem sstFileFullScan_scanned {files : Bytes → SortedEntries} {snippet : Snippet}
    (hSome : ∀ e ∈ scannedEntries files snippet, ∃ row, scanRow snippet.schemaInfo e = some row ∧
      row.length ≤ bufferSize) :
    sstFileFullScan files snippet = some (sstBatches snippet (scannedRows files snippet)) := by
  have hInit : (⟨Data.clear, snippet.resultInfo.csdBlockCount, []⟩ : ScanState) = sstStateOf snippet empty := by
    simp [sstStateOf, enqueuedOf, empty, batchOf]
  rw [sstFileFullScan, foldlM_sstFile, hInit, ← scannedEntries, foldlM_sstEntry snippet hSome, ← scannedRows,
    foldl_sstAppend]
  rfl

def RowsFit (files : Bytes → SortedEntries) (snippet : Snippet) : Prop :=
  ∀ e ∈ tableEntries files snippet, ∃ row, scanRow snippet.schemaInfo e = some row ∧ row.length ≤ bufferSize

theorem scannedEntries_eq (files : Bytes → SortedEntries) {snippet : Snippet}
    (hLow : 0 ≤ snippet.schemaInfo.tableIndexNumber) (hHigh : snippet.schemaInfo.tableIndexNumber < 2 ^ 31) :
    scannedEntries files snippet = tableEntries files snippet := by
  rw [scannedEntries, tableEntries]
  apply List.flatMap_congr
  intro name _
  exact boundedIterator_eq hLow hHigh (files name)

theorem sstFileFullScan_eq {files : Bytes → SortedEntries} {snippet : Snippet}
    (hLow : 0 ≤ snippet.schemaInfo.tableIndexNumber) (hHigh : snippet.schemaInfo.tableIndexNumber < 2 ^ 31)
    (hRows : RowsFit files snippet) :
    sstFileFullScan files snippet = some (sstBatches snippet (tableRows files snippet)) := by
  have hEntries := scannedEntries_eq files hLow hHigh
  rw [tableRows, ← hEntries, ← scannedRows]
  apply sstFileFullScan_scanned
  intro e he
  exact hRows e (hEntries ▸ he)

theorem mem_tableRows_length {files : Bytes → SortedEntries} {snippet : Snippet} (hRows : RowsFit files snippet)
    {row : Bytes} (h : row ∈ tableRows files snippet) : row.length ≤ bufferSize := by
  obtain ⟨e, he, hRow⟩ := List.mem_filterMap.mp h
  obtain ⟨row', hRow', hLength⟩ := hRows e he
  rw [hRow, Option.some_inj] at hRow'
  exact hRow' ▸ hLength

/-- The shape of an enqueued batch. Row `i` is what `rowAt` reads, the bytes from `row_offset[i]` to
`row_offset[i+1]`. -/
structure BatchShape (d : Data) : Prop where
  length_rowOffset : d.rowOffset.length = d.rowCount + 1
  head_rowOffset : d.rowOffset.head? = some 0
  last_rowOffset : d.rowOffset.getLast? = some d.dataLength
  monotone_rowOffset : d.rowOffset.Pairwise (· ≤ ·)
  length_rows : d.rows.length = d.rowCount
  dataLength_le : d.dataLength ≤ bufferSize
  scannedRowCount_eq : d.scannedRowCount = d.rowCount

theorem Carries.batchShape {o : Enqueued} {snippet : Snippet} {rows : List Bytes} {blocks : Int}
    (h : Carries o snippet rows blocks) (hLength : total List.length rows ≤ bufferSize) :
    BatchShape o.result.data where
  length_rowOffset := by rw [h.data_sealed.rowOffset, h.data_sealed.rowCount]; simp
  head_rowOffset := by
    rw [h.data_sealed.rowOffset]
    cases rows <;> simp [rowStarts]
  last_rowOffset := by rw [h.data_sealed.rowOffset, h.data_sealed.dataLength]; simp
  monotone_rowOffset := h.data_sealed.monotone
  length_rows := by simp [Data.rows]
  dataLength_le := by rw [h.data_sealed.dataLength, ← total_length]; exact hLength
  scannedRowCount_eq := by rw [h.scanned, h.data_sealed.rowCount]

theorem flushBatch_batchOf_carries (snippet : Snippet) (rows : List Bytes) (blocks : Int) :
    Carries (flushBatch snippet (batchOf rows) blocks) snippet rows blocks := by
  have h := flushBatch_carries snippet rows 0 blocks
  rw [zero_add] at h
  rw [← (batchOf_counts rows).1] at h
  exact h

theorem rowGroups_fits {rows : List Bytes} (h : ∀ row ∈ rows, row.length ≤ bufferSize) :
    Fits List.length bufferSize (rowGroups rows) :=
  fits_pack _ _ (fits_empty _ _) h

theorem rowGroups_flatten (rows : List Bytes) : (groups (rowGroups rows)).flatten = rows :=
  groups_pack_flatten _ _ _ _

theorem sstBatches_rows (snippet : Snippet) (rows : List Bytes) :
    (sstBatches snippet rows).flatMap (fun o => o.result.data.rows) = rows := by
  have hRows : ∀ rows blocks, (flushBatch snippet (batchOf rows) blocks).result.data.rows = rows :=
    fun rows blocks => (flushBatch_batchOf_carries snippet rows blocks).data_sealed.rows_eq
  have hFlatten := rowGroups_flatten rows
  rw [groups, List.flatten_append, List.flatten_singleton] at hFlatten
  rw [sstBatches, List.flatMap_append, enqueuedOf, List.flatMap_map]
  simp only [hRows, List.flatMap_singleton, List.flatMap_id']
  exact hFlatten

theorem sstBatches_blocks (snippet : Snippet) (rows : List Bytes) :
    (sstBatches snippet rows).map (fun o => o.result.data.currentBlockCount) =
      List.replicate (rowGroups rows).closed.length 100 ++
        [snippet.resultInfo.csdBlockCount - 100 * (rowGroups rows).closed.length] := by
  have hBlocks : ∀ rows blocks,
      (flushBatch snippet (batchOf rows) blocks).result.data.currentBlockCount = blocks :=
    fun rows blocks => (flushBatch_batchOf_carries snippet rows blocks).current
  rw [sstBatches, List.map_append, enqueuedOf, List.map_map]
  simp only [Function.comp_def, hBlocks, List.map_const', List.map_cons, List.map_nil]

theorem sstBatches_blocks_sum (snippet : Snippet) (rows : List Bytes) :
    ((sstBatches snippet rows).map fun o => o.result.data.currentBlockCount).sum =
      snippet.resultInfo.csdBlockCount := by
  rw [sstBatches_blocks, List.sum_append, List.sum_replicate, List.sum_singleton, nsmul_eq_mul]
  omega

theorem forall_mem_sstBatches {P : Enqueued → Prop} {snippet : Snippet} {rows : List Bytes}
    (h : ∀ group ∈ groups (rowGroups rows), ∀ blocks, P (flushBatch snippet (batchOf group) blocks)) :
    ∀ o ∈ sstBatches snippet rows, P o := by
  intro o ho
  rcases List.mem_append.mp ho with ho | ho
  · obtain ⟨group, hMem, rfl⟩ := List.mem_map.mp ho
    exact h group (List.mem_append_left _ hMem) 100
  · rw [List.mem_singleton.mp ho]
    exact h _ (List.mem_append_right _ List.mem_cons_self) _

/-- The scan hands on every row of the table once, in file and key order, in well-formed batches
whose block counts add up to `csd_block_count`. -/
theorem sstFileFullScan_correct (files : Bytes → SortedEntries) (snippet : Snippet)
    (hLow : 0 ≤ snippet.schemaInfo.tableIndexNumber) (hHigh : snippet.schemaInfo.tableIndexNumber < 2 ^ 31)
    (hRows : RowsFit files snippet) :
    ∃ enqueued, sstFileFullScan files snippet = some enqueued ∧
      enqueued.flatMap (fun o => o.result.data.rows) = tableRows files snippet ∧
      (∀ o ∈ enqueued, BatchShape o.result.data) ∧
      (enqueued.map fun o => o.result.data.currentBlockCount).sum = snippet.resultInfo.csdBlockCount := by
  have hFits := rowGroups_fits fun row h => mem_tableRows_length hRows h
  refine ⟨_, sstFileFullScan_eq hLow hHigh hRows, sstBatches_rows _ _, ?_, sstBatches_blocks_sum _ _⟩
  exact forall_mem_sstBatches fun group hGroup blocks =>
    (flushBatch_batchOf_carries snippet group blocks).batchShape (hFits group hGroup)

def ordersFiles : Bytes → SortedEntries := fun _ => ⟨[ordersEntry 1, lineitemEntry 1], orders_before_lineitem⟩

theorem orders_sstFileFullScan :
    ∃ enqueued, sstFileFullScan ordersFiles (ordersSnippet ⟨[bytesOf "1.sst", bytesOf "2.sst"], []⟩ 3) = some enqueued ∧
      enqueued.flatMap (fun o => o.result.data.rows) = [[1, 0, 0, 0, 7, 8], [1, 0, 0, 0, 7, 8]] := by
  have hEntries : tableEntries ordersFiles (ordersSnippet ⟨[bytesOf "1.sst", bytesOf "2.sst"], []⟩ 3) =
      [ordersEntry 1, ordersEntry 1] := rfl
  have hFit : RowsFit ordersFiles (ordersSnippet ⟨[bytesOf "1.sst", bytesOf "2.sst"], []⟩ 3) := by
    intro e he
    rw [hEntries] at he
    simp only [List.mem_cons, List.not_mem_nil, or_false, or_self] at he
    subst he
    exact ⟨[1, 0, 0, 0, 7, 8], by decide, by decide⟩
  obtain ⟨enqueued, hScan, hRows, -⟩ := sstFileFullScan_correct _ _ (by decide) (by decide) hFit
  refine ⟨enqueued, hScan, hRows.trans ?_⟩
  rw [tableRows, hEntries]
  decide

end CsdWorker.Scan
