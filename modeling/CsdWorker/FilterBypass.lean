import CsdWorker.ColumnOffset
import CsdWorker.FilterList
import CsdWorker.ScanWorker

/-! # The bypass of the filter

`enqueue_scan_result` hands a batch without rows, or of a snippet without conditions, to the projection itself. The
filter would have built the same batch again, row by row.
-/

namespace CsdWorker.Scan

open Memory Input

set_option autoImplicit false

/-- The rows of a scanned batch, kept one after the other, give the bytes, offsets and lengths of the scan again. -/
theorem foldl_keepRow_eq (rows : List Bytes) (data : Data) :
    rows.foldl Filter.keepRow (Filter.emptied data) =
      { openBatch rows data.currentBlockCount with
        scannedRowCount := data.scannedRowCount, filteredRowCount := rows.length } := by
  induction rows using List.reverseRecOn with
  | nil => rfl
  | append_singleton rows row ih =>
    rw [List.foldl_append, ih, ← appendRows_openBatch, List.length_append]
    rfl

section Bypass
variable {u : KValue} {depth : Nat} {snippet : Snippet}

theorem rowPasses_of_no_conditions (h : snippet.queryInfo.filtering = []) (row : Bytes) :
    Filter.rowPasses u depth snippet row = (columnOffsetList row snippet.schemaInfo).map fun _ => true := by
  rw [Filter.rowPasses, h]
  cases columnOffsetList row snippet.schemaInfo with
  | none => rfl
  | some offsets => rfl

theorem closedBatch_sealed (rows : List Bytes) (blocks : Int) : (openBatch rows blocks).pushEnd.Sealed rows := by
  have h := (batchOf_holds rows).pushEnd
  exact ⟨h.rowOffset, h.dataLength, h.rowCount, h.bytes⟩

theorem rows_closedBatch (rows : List Bytes) (blocks : Int) : (openBatch rows blocks).pushEnd.rows = rows :=
  (closedBatch_sealed rows blocks).rows_eq

/-- A filter that keeps every row changes the count of filtered rows only. -/
theorem filtering_closedBatch {rows : List Bytes} (blocks : Int)
    (h : ∀ row ∈ rows, Filter.rowPasses u depth snippet row = some true) :
    Filter.filtering u depth ⟨some snippet, (openBatch rows blocks).pushEnd⟩ =
      some ⟨some snippet, { (openBatch rows blocks).pushEnd with filteredRowCount := rows.length }⟩ := by
  have hSome : ∀ row ∈ (openBatch rows blocks).pushEnd.rows, (Filter.rowPasses u depth snippet row).isSome := by
    intro row hRow
    rw [rows_closedBatch] at hRow
    rw [h row hRow]
    rfl
  have hKept : rows.filter (Filter.passes u depth snippet) = rows :=
    List.filter_eq_self.mpr fun row hRow => decide_eq_true (h row hRow)
  rw [Filter.filtering_eq_some rfl hSome, rows_closedBatch, hKept, foldl_keepRow_eq]
  rfl

section Taken
variable {rows : List Bytes} {blocks : Int}
  (hBypass : (openBatch rows blocks).pushEnd.rowCount = 0 ∨ snippet.queryInfo.filtering = [])
include hBypass

/-- Without rows there is nothing to test, without conditions every row passes whose offsets are there. -/
theorem rowPasses_of_bypass {row : Bytes} (hRow : row ∈ rows) :
    Filter.rowPasses u depth snippet row = (columnOffsetList row snippet.schemaInfo).map fun _ => true := by
  obtain hEmpty | hNone := hBypass
  · rw [(closedBatch_sealed rows blocks).rowCount, List.length_eq_zero_iff] at hEmpty
    rw [hEmpty] at hRow
    cases hRow
  · exact rowPasses_of_no_conditions hNone row

theorem filtering_isSome_of_bypass :
    (Filter.filtering u depth ⟨some snippet, (openBatch rows blocks).pushEnd⟩).isSome ↔
      ∀ row ∈ (openBatch rows blocks).pushEnd.rows, (columnOffsetList row snippet.schemaInfo).isSome := by
  rw [Filter.filtering_isSome_iff rfl, rows_closedBatch]
  refine forall₂_congr fun row hRow => ?_
  rw [rowPasses_of_bypass hBypass hRow, Option.isSome_map]

theorem result_of_bypass :
    (enqueueScanResult snippet (openBatch rows blocks).pushEnd).result =
      ⟨some snippet, { (openBatch rows blocks).pushEnd with filteredRowCount := rows.length }⟩ := by
  have hScanned : (openBatch rows blocks).pushEnd.scannedRowCount = rows.length := (batchOf_counts rows).2
  rw [← hScanned]
  exact congrArg Enqueued.result (if_pos (by rwa [List.length_eq_zero_iff]))

end Taken

end Bypass

/-- What the projection reads of a batch. -/
structure SameBatch (a b : Data) : Prop where
  rows : a.rows = b.rows
  rowOffset : a.rowOffset = b.rowOffset
  dataLength : a.dataLength = b.dataLength
  rowCount : a.rowCount = b.rowCount
  scannedRowCount : a.scannedRowCount = b.scannedRowCount
  filteredRowCount : a.filteredRowCount = b.filteredRowCount
  currentBlockCount : a.currentBlockCount = b.currentBlockCount

theorem SameBatch.refl (a : Data) : SameBatch a a := ⟨rfl, rfl, rfl, rfl, rfl, rfl, rfl⟩

/-- The filter returns whenever it can compute the column offsets of the rows, which it can for every schema of a
snippet. -/
theorem bypass_as_filtering (u : KValue) (depth : Nat) (snippet : Snippet) (enqueued : List Enqueued)
    (hScan : Enqueues snippet enqueued) (o : Enqueued) (ho : o ∈ enqueued) (hBypass : o.sink = .projection) :
    ∃ data, o = enqueueScanResult snippet data ∧
      (∀ filtered, Filter.filtering u depth ⟨some snippet, data⟩ = some filtered →
        filtered.snippet = o.result.snippet ∧ SameBatch o.result.data filtered.data) ∧
      ((Filter.filtering u depth ⟨some snippet, data⟩).isSome ↔
        ∀ row ∈ data.rows, (columnOffsetList row snippet.schemaInfo).isSome) ∧
      ∀ columnList, ParsedSchema columnList snippet.schemaInfo →
        (∀ column ∈ columnList, column.type ≠ .varString → 0 ≤ column.length) →
        (Filter.filtering u depth ⟨some snippet, data⟩).isSome := by
  obtain ⟨rows, blocks, rfl⟩ := hScan.handsOn o ho
  have hTaken := (sink_eq_projection_iff snippet _).mp hBypass
  have hReturns : (Filter.filtering u depth ⟨some snippet, (openBatch rows blocks).pushEnd⟩).isSome ↔ _ :=
    filtering_isSome_of_bypass hTaken
  refine ⟨_, rfl, ?_, hReturns, ?_⟩
  · intro filtered hFiltered
    have hOffsets := hReturns.mp (Option.isSome_of_eq_some hFiltered)
    rw [rows_closedBatch] at hOffsets
    have hAll : ∀ row ∈ rows, Filter.rowPasses u depth snippet row = some true := by
      intro row hRow
      obtain ⟨offsets, hSome⟩ := Option.isSome_iff_exists.mp (hOffsets row hRow)
      rw [rowPasses_of_bypass hTaken hRow, hSome, Option.map_some]
    rw [filtering_closedBatch blocks hAll] at hFiltered
    obtain rfl := Option.some_inj.mp hFiltered
    rw [result_of_bypass hTaken]
    exact ⟨rfl, SameBatch.refl _⟩
  · intro columnList hParsed hLengths
    exact hReturns.mpr fun row _ => RowLayout.columnOffsetList_isSome hParsed hLengths row

def twoOrders : Enqueued :=
  enqueueScanResult twoBlocksSnippet (openBatch [[1, 0, 0, 0, 7, 8], [2, 0, 0, 0, 7, 8]] 2).pushEnd

theorem twoOrders_scanned : Enqueues twoBlocksSnippet [twoOrders] :=
  .fullScan (rfl : dataBlockFullScan (twoBlocks (oneOrder 1) (oneOrder 2)) twoBlocksSnippet = some [twoOrders])

theorem twoOrders_bypass :
    ∃ data, twoOrders = enqueueScanResult twoBlocksSnippet data ∧
      ∃ filtered, Filter.filtering KValue.zero 0 ⟨some twoBlocksSnippet, data⟩ = some filtered ∧
        SameBatch twoOrders.result.data filtered.data := by
  obtain ⟨data, hData, hSame, hReturns, -⟩ :=
    bypass_as_filtering KValue.zero 0 twoBlocksSnippet [twoOrders] twoOrders_scanned twoOrders List.mem_cons_self rfl
  obtain ⟨filtered, hFiltered⟩ := Option.isSome_iff_exists.mp (hReturns.mpr fun _ _ => rfl)
  exact ⟨data, hData, filtered, hFiltered, (hSame filtered hFiltered).2⟩

end CsdWorker.Scan
