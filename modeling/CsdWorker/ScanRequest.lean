import CsdWorker.FilterBypass
import CsdWorker.PipelineCorrect

/-! # The scan that a snippet asks for

`Scan::scan_worker` takes a snippet and calls the scan of its type. Whether the projection can count the batches off
rests on three things: every batch is closed and carries its snippet, no choice of batches but all of them weighs
`csd_block_count`, and all of them do.
-/

namespace CsdWorker.Scan

open Memory
open Pipeline (NeverEarly ScanBatch)

set_option autoImplicit false

inductive SnippetType where
  | fullScan | indexScan | indexTableScan | tmaxSnippet | sstFileScan | undefined (code : Int)
  deriving DecidableEq, Repr

/-- A snippet with what only the scan layer reads of it. -/
structure Request where
  type : SnippetType
  partition : Bytes
  seekKey : List Bytes
  snippet : Snippet
  deriving DecidableEq, Repr

/-- What RocksDB reads: blocks by partition, offsets and lengths, files by name. `found` and `foundIn` are the entries
at which a seek of the unset key ends, in the file of `data_block_index_scan` and in a block. -/
structure Storage where
  blocks : Bytes → List Nat → List Nat → SortedEntries
  files : Bytes → SortedEntries
  found : Option Entry
  foundIn : Bytes → List Nat → List Nat → Option Entry

/-- A type that is not defined is only logged. -/
def scanWorker (storage : Storage) (request : Request) : Option (List Enqueued) :=
  match request.type with
  | .fullScan => dataBlockFullScan (storage.blocks request.partition) request.snippet
  | .indexScan => dataBlockIndexScan request.snippet storage.found request.seekKey.length
  | .indexTableScan =>
    if request.seekKey.length = 0 then
      indexBlockScan (fun offset length => (storage.blocks request.partition offset length).entries) request.snippet
    else indexBlockSeekScan request.snippet (storage.foundIn request.partition) request.seekKey.length
  | .sstFileScan => sstFileFullScan storage.files request.snippet
  | .tmaxSnippet | .undefined _ => some []

section Batches
variable {storage : Storage} {request : Request} {batches : List Enqueued} {snippet : Snippet}

theorem scanWorker_handsOn (h : scanWorker storage request = some batches) :
    ∀ o ∈ batches, HandsOn request.snippet o := by
  unfold scanWorker at h
  split at h
  · exact (Enqueues.fullScan h).handsOn
  · exact (Enqueues.indexScan h).handsOn
  · split at h
    · exact (Enqueues.indexTableScan h).handsOn
    · exact (Enqueues.indexTableSeek h).handsOn
  · exact (Enqueues.sstFileScan h).handsOn
  · obtain rfl := Option.some_inj.mp h
    simp
  · obtain rfl := Option.some_inj.mp h
    simp

theorem HandsOn.scanBatch {o : Enqueued} (h : HandsOn snippet o) : ScanBatch snippet o := by
  obtain ⟨rows, blocks, rfl⟩ := h
  have hSealed := closedBatch_sealed rows blocks
  have hCarries : Carries (enqueueScanResult snippet (openBatch rows blocks).pushEnd) snippet rows _ :=
    enqueueScanResult_carries hSealed (batchOf_counts rows).2
  have hRows := hCarries.data_sealed.rows_eq
  have hSink := sink_eq_projection_iff snippet (openBatch rows blocks).pushEnd
  refine ⟨hCarries.snippet_eq, ?_, fun hDirect => ?_, fun hFilter hNil => ?_⟩
  · rw [hRows]
    exact hCarries.data_sealed
  · refine (hSink.mp hDirect).symm.imp_right fun hCount => ?_
    rw [hRows]
    exact List.length_eq_zero_iff.mp (hSealed.rowCount.symm.trans hCount)
  · cases hFilter.symm.trans (hSink.mpr (Or.inr hNil))

/-- No count of fewer batches is taken for the end, and all batches make up `csd_block_count`. -/
structure CountedOff (snippet : Snippet) (batches : List Enqueued) : Prop where
  neverEarly : NeverEarly snippet batches
  blocks : blocksOf batches = snippet.resultInfo.csdBlockCount

theorem CountsDown.countedOff (h : CountsDown snippet.resultInfo.csdBlockCount batches) :
    CountedOff snippet batches := by
  refine ⟨fun vs hle _ hSum => ?_, h.blocks⟩
  obtain ⟨rest, hRest⟩ := Multiset.le_iff_exists_add.mp hle
  have hZero : rest.sum = 0 := by
    have hTotal := congrArg Multiset.sum hRest
    rw [Multiset.sum_add, Multiset.sum_coe, hSum, ← h.blocks] at hTotal
    exact left_eq_add.mp hTotal
  -- what is left weighs nothing, and every batch weighs something
  have hPos : ∀ c ∈ rest, 0 < c := by
    intro c hc
    have hMem : c ∈ batches.map Pipeline.blocksOf :=
      Multiset.mem_coe.mp (hRest ▸ Multiset.mem_add.mpr (Or.inr hc))
    obtain ⟨o, ho, rfl⟩ := List.mem_map.mp hMem
    exact h.positive o ho
  have hNil : rest = 0 := by
    refine Multiset.eq_zero_of_forall_notMem fun c hc => ?_
    have hLe := Multiset.single_le_sum (fun x hx => (hPos x hx).le) c hc
    exact absurd (hPos c hc) (not_lt.mpr (hZero ▸ hLe))
  rw [hRest, hNil, add_zero]

theorem countedOff_sstBatches (rows : List Bytes)
    (hParts : ∀ j : ℕ, 1 ≤ j → j ≤ (rowGroups rows).closed.length →
      100 * (j : Int) ≠ snippet.resultInfo.csdBlockCount) :
    CountedOff snippet (sstBatches snippet rows) := by
  refine ⟨fun vs hle hne hSum => ?_, sstBatches_blocks_sum snippet rows⟩
  rw [Pipeline.blocksOf_sstBatches, ← Multiset.coe_add, Multiset.coe_replicate, Multiset.coe_singleton, add_comm,
    Multiset.singleton_add] at hle ⊢
  exact Quota.parts_eq (by decide) hParts hle hne hSum

/-- The batches of the scan can be counted off, and their rows are `rows`. -/
structure Scans (storage : Storage) (request : Request) (rows : List Bytes) (batches : List Enqueued) : Prop where
  scanned : scanWorker storage request = some batches
  counted : CountedOff request.snippet batches
  rows : (rowsOf batches).Perm rows

/-- What the files of an SST scan must be like: every row fits the buffer, and no number of full buffers, at 100 blocks
each, makes up `csd_block_count`. -/
structure SstScannable (files : Bytes → SortedEntries) (snippet : Snippet) : Prop where
  fit : Pipeline.ScannedFit files snippet
  parts : ∀ j : ℕ, 1 ≤ j → j ≤ (rowGroups (scannedRows files snippet)).closed.length →
    100 * (j : Int) ≠ snippet.resultInfo.csdBlockCount

theorem SstScannable.scans (hType : request.type = .sstFileScan) (h : SstScannable storage.files request.snippet) :
    ∃ batches, Scans storage request (scannedRows storage.files request.snippet) batches := by
  refine ⟨sstBatches request.snippet (scannedRows storage.files request.snippet), ?_,
    countedOff_sstBatches _ h.parts, ?_⟩
  · rw [scanWorker, hType]
    exact sstFileFullScan_scanned h.fit
  · rw [rowsOf, sstBatches_rows]

/-- What the blocks of a full scan must be like: they are all of `csd_block_count`, their rows can be converted, those
of each hundred blocks fit the buffer, and no block has a row of another table but the last one with anything to
show. -/
structure BlocksScannable (blocks : List Nat → List Nat → SortedEntries) (snippet : Snippet) : Prop where
  number : IntNumber snippet
  described : snippet.resultInfo.csdBlockCount = describedBlocks snippet.blockInfo.blockList
  convertible : ∀ block ∈ listedBlocks blocks snippet, Convertible snippet block
  boundary : BoundaryAtEnd snippet (listedBlocks blocks snippet)
  fit : BatchesFit snippet (listedBlocks blocks snippet)

theorem BlocksScannable.scans (hType : request.type = .fullScan)
    (h : BlocksScannable (storage.blocks request.partition) request.snippet) :
    ∃ batches, Scans storage request
      ((listedBlocks (storage.blocks request.partition) request.snippet).flatMap (blockRows request.snippet))
        batches := by
  have hTotal := h.described
  rw [← length_listedBlocks (storage.blocks request.partition)] at hTotal
  have hInit : Counting request.snippet request.snippet.resultInfo.csdBlockCount [] [] 0
      ⟨Data.clear, request.snippet.resultInfo.csdBlockCount, []⟩ :=
    ⟨rfl, le_rfl, by decide, by simp, by simp, by simp [blocksOf], by simp [rowsOf], fun _ => ⟨rfl, rfl⟩⟩
  have hAccounted := (accounted_run h.number h.convertible hInit (by rw [hTotal, List.length_nil, Nat.zero_add])).mpr
    h.boundary
  rw [List.nil_append] at hAccounted
  obtain ⟨s, hRun⟩ := Option.isSome_iff_exists.mp ((isSome_fullScan_iff h.number h.convertible h.boundary).mpr h.fit)
  rw [← hTotal] at hRun
  rw [← eq_foldl_blockStep h.number h.convertible hRun] at hAccounted
  refine ⟨s.enqueued, ?_, (CountsDown.mk hAccounted.positive hAccounted.blocks).countedOff, hAccounted.rows⟩
  rw [scanWorker, hType]
  simp only [dataBlockFullScan, hRun]
  rfl

/-- The requests whose batches can be counted off, with the rows that the scan finds. -/
inductive Scannable (storage : Storage) (request : Request) : List Bytes → Prop
  | sst (type : request.type = .sstFileScan) (files : SstScannable storage.files request.snippet) :
    Scannable storage request (scannedRows storage.files request.snippet)
  | blocks (type : request.type = .fullScan)
    (blocks : BlocksScannable (storage.blocks request.partition) request.snippet) :
    Scannable storage request
      ((listedBlocks (storage.blocks request.partition) request.snippet).flatMap (blockRows request.snippet))

theorem Scannable.scans {rows : List Bytes} (h : Scannable storage request rows) :
    ∃ batches, Scans storage request rows batches := by
  cases h with
  | sst type files => exact files.scans type
  | blocks type blocks => exact blocks.scans type

end Batches

end CsdWorker.Scan
