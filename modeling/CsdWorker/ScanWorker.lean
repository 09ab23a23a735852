import CsdWorker.IndexScan
import CsdWorker.SstScan
import CsdWorker.Lib.Run

/-! # The scan worker

The scans that `scan_worker` selects by the type of a snippet. Those with seek keys never set the key that they seek, so
that every seek in a block or a file ends at the same entry. Whichever scan it is, what it hands on is a closed batch.
-/

namespace CsdWorker.Scan

open Memory

set_option autoImplicit false

section Seek
variable (snippet : Snippet)

/-- The loop over the seek keys. `found` is the entry that the iterator is at after a seek, if it is valid. -/
def seekLoop (boundary : ScanState → ScanState) (found : Option Entry) : Nat → ScanState → Option (Bool × ScanState)
  | 0, s => some (false, s)
  | keys + 1, s =>
    match found with
    | none => some (false, s)
    | some e =>
      if e.tableIndexNumber ≠ snippet.schemaInfo.tableIndexNumber then some (true, boundary s)
      else do
        let row ← indexRow snippet.schemaInfo e
        let data ← copyRow s.data row
        seekLoop boundary found keys { s with data := data }

/-- `data_block_index_scan` counts no blocks. -/
def fileBoundary (s : ScanState) : ScanState :=
  { s with data := Data.clear, enqueued := s.enqueued ++ [enqueueScanResult snippet s.data.pushEnd] }

/-- `break` leaves the inner loop only. -/
def seekRounds (found : Option Entry) (keys : Nat) : Nat → ScanState → Option ScanState
  | 0, s => some s
  | rounds + 1, s => do
    let (returned, s) ← seekLoop snippet (fileBoundary snippet) found keys s
    if returned then pure s else seekRounds found keys rounds s

/-- Rows that no boundary follows are not handed on. -/
def dataBlockIndexScan (found : Option Entry) (keys : Nat) : Option (List Enqueued) := do
  let s ← seekRounds snippet found keys keys ⟨Data.clear, 0, []⟩
  pure s.enqueued

/-- The branch of `read_index_block` with seek keys. -/
def seekIndexBlock (keys : Nat) (s : ScanState) (found : Option Entry) : Option ScanState := do
  let (returned, s) ← seekLoop snippet (indexBoundary snippet) found keys s
  pure (if returned then s else countBlock snippet s)

/-- The branch of `index_block_scan` with seek keys; `found` says where a seek ends in the block. -/
def indexBlockSeekScan (found : List Nat → List Nat → Option Entry) (keys : Nat) : Option (List Enqueued) := do
  let s ← ((snippet.blockInfo.blockList.flatMap blockReads).map fun read => found read.1 read.2).foldlM
    (seekIndexBlock snippet keys) ⟨Data.clear, snippet.resultInfo.csdBlockCount, []⟩
  pure s.enqueued

/-- What the worker enqueues for a snippet, whatever the storage holds. -/
inductive Enqueues : List Enqueued → Prop
  | fullScan {blocks : List Nat → List Nat → SortedEntries} {enqueued : List Enqueued}
      (h : dataBlockFullScan blocks snippet = some enqueued) : Enqueues enqueued
  | indexScan {found : Option Entry} {keys : Nat} {enqueued : List Enqueued}
      (h : dataBlockIndexScan snippet found keys = some enqueued) : Enqueues enqueued
  | indexTableScan {blocks : List Nat → List Nat → List Entry} {enqueued : List Enqueued}
      (h : indexBlockScan blocks snippet = some enqueued) : Enqueues enqueued
  | indexTableSeek {found : List Nat → List Nat → Option Entry} {keys : Nat} {enqueued : List Enqueued}
      (h : indexBlockSeekScan snippet found keys = some enqueued) : Enqueues enqueued
  | sstFileScan {files : Bytes → SortedEntries} {enqueued : List Enqueued}
      (h : sstFileFullScan files snippet = some enqueued) : Enqueues enqueued

/-- The loop is that of the scans without seek keys, on the entry as often as there are keys. -/
theorem seekLoop_eq_scanLoop (boundary : ScanState → ScanState) (found : Option Entry) (keys : Nat) (s : ScanState) :
    seekLoop snippet boundary found keys s = scanLoop snippet boundary (List.replicate keys found).reduceOption s := by
  induction keys generalizing s with
  | zero => rfl
  | succ keys ih =>
    cases found with
    | none =>
      rw [List.reduceOption_replicate_none]
      rfl
    | some e =>
      rw [List.replicate_succ, List.reduceOption_cons_of_some, scanLoop, seekLoop]
      simp only [ih, indexRow_eq_scanRow]

end Seek

section Batches
variable (snippet : Snippet)

/-- The batch is a sequence of rows, closed and counted. -/
def HandsOn (o : Enqueued) : Prop := ∃ rows blocks, o = enqueueScanResult snippet (openBatch rows blocks).pushEnd

structure Batched (s : ScanState) : Prop where
  opened : ∃ rows blocks, s.data = openBatch rows blocks
  handed : ∀ o ∈ s.enqueued, HandsOn snippet o

theorem batched_initial (left : Int) : Batched snippet ⟨Data.clear, left, []⟩ :=
  ⟨⟨[], 0, rfl⟩, by simp⟩

variable {snippet} {s : ScanState}

theorem Batched.appendRows (h : Batched snippet s) (rows : List Bytes) :
    Batched snippet { s with data := appendRows s.data rows } := by
  obtain ⟨⟨opened, blocks, hData⟩, hHanded⟩ := h
  exact ⟨⟨opened ++ rows, blocks, by rw [hData, appendRows_openBatch]⟩, hHanded⟩

/-- A batch may be charged with any number of blocks when it is closed. -/
theorem Batched.handOn (h : Batched snippet s) (blocks : Data → Int) (left : Int) :
    Batched snippet ⟨Data.clear, left,
      s.enqueued ++ [enqueueScanResult snippet { s.data with currentBlockCount := blocks s.data }.pushEnd]⟩ := by
  obtain ⟨⟨opened, counted, hData⟩, hHanded⟩ := h
  refine ⟨⟨[], 0, rfl⟩, ?_⟩
  intro o ho
  obtain ho | ho := List.mem_append.mp ho
  · exact hHanded o ho
  · refine ⟨opened, blocks s.data, ?_⟩
    rw [List.mem_singleton.mp ho, hData]
    rfl

theorem Batched.countBlock (h : Batched snippet s) : Batched snippet (countBlock snippet s) := by
  rw [Scan.countBlock]
  split
  · exact h.handOn (fun data => data.currentBlockCount + 1) _
  · obtain ⟨⟨opened, blocks, hData⟩, hHanded⟩ := h
    exact ⟨⟨opened, blocks + 1, by rw [hData]; rfl⟩, hHanded⟩

section Loops
variable {boundary : ScanState → ScanState} (hBoundary : ∀ s, Batched snippet s → Batched snippet (boundary s))
include hBoundary

theorem Batched.scanLoop (h : Batched snippet s) {es : List Entry} {returned : Bool} {s' : ScanState}
    (hLoop : scanLoop snippet boundary es s = some (returned, s')) : Batched snippet s' := by
  obtain ⟨rows, -, -, hEnd⟩ := (scanLoop_eq_some_iff snippet boundary).mp hLoop
  split at hEnd
  · obtain ⟨-, rfl⟩ := Prod.mk.inj hEnd
    exact hBoundary _ (h.appendRows rows)
  · obtain ⟨-, rfl⟩ := Prod.mk.inj hEnd
    exact h.appendRows rows

theorem Batched.scanBlock (h : Batched snippet s) {es : List Entry} {s' : ScanState}
    (hBlock : scanBlock snippet boundary es s = some s') : Batched snippet s' := by
  obtain ⟨⟨returned, t⟩, hLoop, hEnd⟩ := Option.bind_eq_some_iff.mp hBlock
  obtain rfl := Option.some_inj.mp hEnd
  have ht := h.scanLoop hBoundary hLoop
  split
  · exact ht
  · exact ht.countBlock

end Loops

theorem Batched.dataBoundary (h : Batched snippet s) : Batched snippet (dataBoundary snippet s) :=
  h.handOn (fun data => data.currentBlockCount + s.leftBlockCount) 0

theorem Batched.indexBoundary (h : Batched snippet s) : Batched snippet (indexBoundary snippet s) :=
  h.handOn (fun _ => s.leftBlockCount) 0

theorem Batched.fileBoundary (h : Batched snippet s) : Batched snippet (fileBoundary snippet s) :=
  h.handOn Data.currentBlockCount s.leftBlockCount

theorem Batched.sstEntry (h : Batched snippet s) {e : Entry} {s' : ScanState}
    (hEntry : sstEntry snippet s e = some s') :
    Batched snippet s' := by
  obtain ⟨row, -, hCopy⟩ := Option.bind_eq_some_iff.mp hEntry
  obtain ⟨data, hData, hEnd⟩ := Option.bind_eq_some_iff.mp hCopy
  obtain ⟨-, rfl⟩ := copyRow_eq_some_iff.mp hData
  obtain rfl := Option.some_inj.mp hEnd
  have hFlush : Batched snippet (sstFlush snippet s row) := by
    rw [sstFlush]
    split
    · exact h.handOn (fun data => data.currentBlockCount + 100) (s.leftBlockCount - 100)
    · exact h
  exact hFlush.appendRows [row]

theorem Batched.seekRounds (h : Batched snippet s) {found : Option Entry} {keys rounds : Nat} {s' : ScanState}
    (hRounds : seekRounds snippet found keys rounds s = some s') : Batched snippet s' := by
  induction rounds generalizing s with
  | zero =>
    obtain rfl := Option.some_inj.mp hRounds
    exact h
  | succ rounds ih =>
    obtain ⟨⟨returned, t⟩, hLoop, hEnd⟩ := Option.bind_eq_some_iff.mp hRounds
    rw [seekLoop_eq_scanLoop] at hLoop
    have ht := h.scanLoop (fun _ => Batched.fileBoundary) hLoop
    cases returned with
    | true =>
      obtain rfl := Option.some_inj.mp hEnd
      exact ht
    | false => exact ih ht hEnd

/-- Every step of a scan keeps the batch a sequence of rows, and so does the whole scan. -/
theorem Enqueues.handsOn {enqueued : List Enqueued} (h : Enqueues snippet enqueued) :
    ∀ o ∈ enqueued, HandsOn snippet o := by
  cases h with
  | fullScan h =>
    obtain ⟨s, hRun, hEnd⟩ := Option.bind_eq_some_iff.mp h
    obtain rfl := Option.some_inj.mp hEnd
    refine (Run.run_preserves ?_ (batched_initial snippet _) hRun).handed
    intro s block s' hs hBlock
    rw [readDataBlock_eq_scanBlock] at hBlock
    exact hs.scanBlock (fun _ => Batched.dataBoundary) hBlock
  | indexScan h =>
    obtain ⟨s, hRounds, hEnd⟩ := Option.bind_eq_some_iff.mp h
    obtain rfl := Option.some_inj.mp hEnd
    exact ((batched_initial snippet 0).seekRounds hRounds).handed
  | indexTableScan h =>
    obtain ⟨s, hRun, hEnd⟩ := Option.bind_eq_some_iff.mp h
    obtain rfl := Option.some_inj.mp hEnd
    refine (Run.run_preserves ?_ (batched_initial snippet _) hRun).handed
    intro s block s' hs hBlock
    rw [readIndexBlock_eq_scanBlock] at hBlock
    exact hs.scanBlock (fun _ => Batched.indexBoundary) hBlock
  | indexTableSeek h =>
    obtain ⟨s, hRun, hEnd⟩ := Option.bind_eq_some_iff.mp h
    obtain rfl := Option.some_inj.mp hEnd
    refine (Run.run_preserves ?_ (batched_initial snippet _) hRun).handed
    intro s sought s' hs hBlock
    rw [seekIndexBlock, seekLoop_eq_scanLoop] at hBlock
    exact hs.scanBlock (fun _ => Batched.indexBoundary) hBlock
  | sstFileScan h =>
    obtain ⟨s, hRun, hEnd⟩ := Option.bind_eq_some_iff.mp h
    obtain rfl := Option.some_inj.mp hEnd
    have hs : Batched snippet s := by
      refine Run.run_preserves ?_ (batched_initial snippet _) hRun
      intro s name s' hs hFile
      exact Run.run_preserves (fun _ _ _ hs hEntry => hs.sstEntry hEntry) hs hFile
    exact (hs.handOn (fun data => data.currentBlockCount + s.leftBlockCount) 0).handed

end Batches

end CsdWorker.Scan
