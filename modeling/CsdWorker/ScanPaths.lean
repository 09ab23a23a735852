import CsdWorker.BatchAppend
import CsdWorker.Lib.Run
import CsdWorker.SstScan

/-! # The block scan beside the file scan

The bounds of the file iterator select the rows that the block scan selects by their index number. Where the file scan
hands a batch on before a row that would not fit, the block scan only counts blocks.
-/

namespace CsdWorker.Scan

open Memory

set_option autoImplicit false

/-- The bounds of the iterator hold exactly the keys with the index number of the table, so that the two scans select
the same entries of a file. -/
theorem scan_paths_select_same (snippet : Snippet) (hLow : 0 ≤ snippet.schemaInfo.tableIndexNumber)
    (hHigh : snippet.schemaInfo.tableIndexNumber < 2 ^ 31) :
    (∀ e : Entry,
      (¬e.key < generateSeekKey snippet.schemaInfo.tableIndexNumber ∧
          e.key < generateSeekKey (snippet.schemaInfo.tableIndexNumber + 1)) ↔
        e.tableIndexNumber = snippet.schemaInfo.tableIndexNumber) ∧
      ∀ file : SortedEntries,
        boundedIterator (generateSeekKey snippet.schemaInfo.tableIndexNumber)
            (generateSeekKey (snippet.schemaInfo.tableIndexNumber + 1)) file =
          (visible snippet file).takeWhile fun e => e.tableIndexNumber = snippet.schemaInfo.tableIndexNumber := by
  constructor
  · intro e
    exact key_in_bounds_iff e hLow hHigh
  · intro file
    rw [boundedIterator_eq hLow hHigh, filter_eq_takeWhile ⟨by omega, hHigh⟩ file.sorted]
    rfl

def lastTableSnippet : Snippet :=
  { ordersSnippet ⟨[], []⟩ 0 with schemaInfo := { ordersSchema with tableIndexNumber := 2 ^ 31 - 1 } }

def lastTableFile : SortedEntries := ⟨[⟨[0x7f, 0xff, 0xff, 0xff, 9], [1], by decide⟩], by simp⟩

/-- The largest number: `n + 1` is negative as an `int`, and its key is still the next one. -/
theorem last_table_selected :
    (boundedIterator (generateSeekKey lastTableSnippet.schemaInfo.tableIndexNumber)
      (generateSeekKey (lastTableSnippet.schemaInfo.tableIndexNumber + 1)) lastTableFile).map Entry.key =
        [[0x7f, 0xff, 0xff, 0xff, 9]] := by
  rw [(scan_paths_select_same lastTableSnippet (by decide) (by decide)).2 lastTableFile]
  decide

section Batch
variable (snippet : Snippet)

/-- The loop over one of the blocks comes to the copy of `row` in the state `s'`, after its entries `es`. -/
def Copies (blocks : List SortedEntries) (start s' : ScanState) (row : Bytes) : Prop :=
  ∃ before block after, blocks = before ++ block :: after ∧
    ∃ s, before.foldlM (fun s block => readDataBlock snippet block s) start = some s ∧
      ∃ es e, es ++ [e] <+: visible snippet block ∧ blockLoop snippet es s = some (false, s') ∧
        e.tableIndexNumber = snippet.schemaInfo.tableIndexNumber ∧ scanRow snippet.schemaInfo e = some row

/-- Nothing is handed on before the last block. -/
def OneBatch (blocks : List SortedEntries) (start : ScanState) : Prop :=
  ∀ s, blocks.dropLast.foldlM (fun s block => readDataBlock snippet block s) start = some s →
    s.enqueued = start.enqueued

end Batch

section Run
variable (snippet : Snippet)

theorem enqueued_prefix_blockStep (s : ScanState) (block : SortedEntries) :
    s.enqueued <+: (blockStep snippet s block).enqueued := by
  obtain ⟨hNone, -⟩ | ⟨batch, hOne, -⟩ := (blockStep_extends s block : Extends snippet s _ _).inv
  · rw [hNone]
  · rw [hOne]
    exact List.prefix_append _ _

theorem enqueued_prefix_run (s : ScanState) (blocks : List SortedEntries) :
    s.enqueued <+: (blocks.foldl (blockStep snippet) s).enqueued := by
  induction blocks generalizing s with
  | nil => exact List.prefix_rfl
  | cons block blocks ih => exact (enqueued_prefix_blockStep snippet s block).trans (ih _)

variable {snippet}

/-- As long as nothing is handed on, `data_length` grows by the rows of the blocks. -/
theorem dataLength_run {s : ScanState} {blocks : List SortedEntries}
    (h : (blocks.foldl (blockStep snippet) s).enqueued = s.enqueued) :
    (blocks.foldl (blockStep snippet) s).data.dataLength =
      s.data.dataLength + (blocks.flatMap (blockRows snippet)).flatten.length := by
  induction blocks generalizing s with
  | nil => rfl
  | cons block blocks ih =>
    have hFirst := enqueued_prefix_blockStep snippet s block
    have hRest := enqueued_prefix_run snippet (blockStep snippet s block) blocks
    rw [List.foldl_cons] at h ⊢
    rw [h] at hRest
    have hSame := hRest.eq_of_length_le hFirst.length_le
    rw [ih (h.trans hSame.symm), List.flatMap_cons, List.flatten_append, List.length_append, ← Nat.add_assoc]
    congr 1
    obtain ⟨-, hAppended⟩ | ⟨batch, hOne, -⟩ := (blockStep_extends s block : Extends snippet s _ _).inv
    · exact hAppended.dataLength
    · rw [hSame] at hOne
      simp at hOne

/-- A batch without a boundary in it stays open until a hundred blocks are read or none is left. -/
theorem foldl_blockStep_open {blocks : List SortedEntries} (hBlocks : ∀ block ∈ blocks, ¬Boundary snippet block)
    {rows : List Bytes} {c left : Int} {enqueued : List Enqueued} (hFew : c + blocks.length < numOfBlocks)
    (hLeft : blocks.length < left) :
    (blocks.foldl (blockStep snippet) ⟨openBatch rows c, left, enqueued⟩).enqueued = enqueued := by
  induction blocks generalizing rows c left with
  | nil => rfl
  | cons block blocks ih =>
    obtain ⟨hBlock, hRest⟩ := List.forall_mem_cons.mp hBlocks
    rw [List.length_cons] at hFew hLeft
    have hOpen : ¬(c + 1 = numOfBlocks ∨ left - 1 = 0) := by omega
    rw [List.foldl_cons, blockStep, if_neg hBlock, appendRows_openBatch, countBlock_open snippet hOpen]
    exact ih hRest (by omega) (by omega)

theorem oneBatch_of_not_boundary (hInt : IntNumber snippet) {blocks : List SortedEntries} {left : Int}
    {enqueued : List Enqueued} (hConvert : ∀ block ∈ blocks, Convertible snippet block)
    (hBlocks : ∀ block ∈ blocks.dropLast, ¬Boundary snippet block) (hFew : blocks.length ≤ numOfBlocks)
    (hLeft : blocks.length ≤ left) : OneBatch snippet blocks ⟨Data.clear, left, enqueued⟩ := by
  intro s hRun
  obtain rfl := eq_foldl_blockStep hInt (fun block hBlock => hConvert block (List.mem_of_mem_dropLast hBlock)) hRun
  by_cases hNil : blocks = []
  · rw [hNil]
    rfl
  · have hLength : blocks.dropLast.length = blocks.length - 1 := List.length_dropLast
    have hPos := List.length_pos_iff.mpr hNil
    have hStart : Data.clear = openBatch [] 0 := rfl
    rw [hStart]
    exact foldl_blockStep_open hBlocks (by omega) (by omega)

end Run

section Inside
variable {snippet : Snippet}

/-- In the loop over entries of the table the rows are copied one behind the other. -/
theorem blockLoop_own_iff {es : List Entry} (hOwn : ∀ e ∈ es, e.tableIndexNumber = snippet.schemaInfo.tableIndexNumber)
    (hSome : ∀ e ∈ es, (scanRow snippet.schemaInfo e).isSome) {s : ScanState} {result : Bool × ScanState} :
    blockLoop snippet es s = some result ↔
      Room s.data (es.filterMap (scanRow snippet.schemaInfo)) ∧
        result = (false, { s with data := appendRows s.data (es.filterMap (scanRow snippet.schemaInfo)) }) := by
  have hNone : ¬Foreign snippet es := fun ⟨e, he, hOther⟩ => hOther (hOwn e he)
  have hRows : ownRows snippet es = some (es.filterMap (scanRow snippet.schemaInfo)) := by
    rw [ownRows, List.takeWhile_eq_self_iff.mpr (by simpa using hOwn), mapM_eq_some_filterMap hSome]
  rw [blockLoop_eq_scanLoop, scanLoop_eq_some_iff, hRows]
  simp only [if_neg hNone]
  constructor
  · rintro ⟨rows, hSame, hRoom, rfl⟩
    obtain rfl := Option.some_inj.mp hSame
    exact ⟨hRoom, rfl⟩
  · rintro ⟨hRoom, rfl⟩
    exact ⟨_, rfl, hRoom, rfl⟩

theorem dataLength_appendRows (data : Data) (rows : List Bytes) :
    (appendRows data rows).dataLength = data.dataLength + rows.flatten.length :=
  (appended_appendRows rows data).dataLength

variable (snippet) in
/-- Whether the batch is handed on or not, it has at most the rows it had and those of the block. -/
theorem dataLength_blockStep_le (s : ScanState) (block : SortedEntries) :
    (blockStep snippet s block).data.dataLength ≤ s.data.dataLength + rowsLength snippet block := by
  rw [rowsLength, ← dataLength_appendRows, blockStep]
  split
  · exact Nat.zero_le _
  · rw [countBlock]
    split
    · exact Nat.zero_le _
    · exact le_rfl

variable (snippet) in
theorem dataLength_run_le (s : ScanState) (blocks : List SortedEntries) :
    (blocks.foldl (blockStep snippet) s).data.dataLength ≤
      s.data.dataLength + (blocks.flatMap (blockRows snippet)).flatten.length := by
  induction blocks generalizing s with
  | nil => exact le_rfl
  | cons block blocks ih =>
    have hFirst := dataLength_blockStep_le snippet s block
    have hRest := ih (blockStep snippet s block)
    rw [rowsLength] at hFirst
    rw [List.foldl_cons, List.flatMap_cons, List.flatten_append, List.length_append]
    omega

/-- A batch that came from copies inside the buffer is inside the buffer. -/
theorem dataLength_le_of_run (hInt : IntNumber snippet) {blocks : List SortedEntries} {s s' : ScanState}
    (hConvert : ∀ block ∈ blocks, Convertible snippet block) (hStart : s.data.dataLength ≤ bufferSize)
    (h : blocks.foldlM (fun s block => readDataBlock snippet block s) s = some s') :
    s'.data.dataLength ≤ bufferSize := by
  refine Run.run_preserves_of (I := fun s => s.data.dataLength ≤ bufferSize) (fun s block s' hBlock hs hRead => ?_)
    hConvert hStart h
  obtain ⟨hRoom, rfl⟩ := (readDataBlock_eq_some_iff hInt hBlock).mp hRead
  exact (dataLength_blockStep_le snippet s block).trans ((room_iff hs).mp hRoom)

/-- The entries of the table that the iterator shows. -/
def ownEntries (snippet : Snippet) (block : SortedEntries) : List Entry :=
  (visible snippet block).takeWhile fun e => e.tableIndexNumber = snippet.schemaInfo.tableIndexNumber

theorem own_of_front {block : SortedEntries} {es : List Entry} (h : es <+: ownEntries snippet block) :
    ∀ e ∈ es, e.tableIndexNumber = snippet.schemaInfo.tableIndexNumber := fun e he => by
  simpa using List.mem_takeWhile_imp (h.mem he)

theorem isSome_of_front {block : SortedEntries} (hConvert : Convertible snippet block) {es : List Entry}
    (h : es <+: ownEntries snippet block) : ∀ e ∈ es, (scanRow snippet.schemaInfo e).isSome := fun e he =>
  hConvert e (mem_visible ((List.takeWhile_prefix _).mem (h.mem he))) (own_of_front h e he)

theorem prefix_takeWhile_of_forall {α : Type} {p : α → Bool} {xs ys : List α} (h : xs <+: ys) (hAll : ∀ x ∈ xs, p x) :
    xs <+: ys.takeWhile p := by
  obtain ⟨zs, rfl⟩ := h
  rw [List.takeWhile_append_of_pos hAll]
  exact List.prefix_append _ _

/-- Where every copy in the block fits there is room for all its rows: the copies are taken one by one. -/
theorem room_of_copies (hInt : IntNumber snippet) {block : SortedEntries} (hConvert : Convertible snippet block)
    {s : ScanState}
    (hFits : ∀ es e s' row, es ++ [e] <+: ownEntries snippet block → blockLoop snippet es s = some (false, s') →
      scanRow snippet.schemaInfo e = some row → s'.data.dataLength + row.length ≤ bufferSize) :
    Room s.data (blockRows snippet block) := by
  have hPrefix : ∀ es, es <+: ownEntries snippet block → Room s.data (es.filterMap (scanRow snippet.schemaInfo)) := by
    intro es
    induction es using List.reverseRecOn with
    | nil => exact fun _ => room_nil _
    | append_singleton es e ih =>
      intro hEs
      have hFront := (List.prefix_append es [e]).trans hEs
      obtain ⟨row, hRow⟩ := Option.isSome_iff_exists.mp (isSome_of_front hConvert hEs e (by simp))
      have hLoop := (blockLoop_own_iff (own_of_front hFront) (isSome_of_front hConvert hFront)).mpr ⟨ih hFront, rfl⟩
      have hCopy := hFits es e _ row hEs hLoop hRow
      rw [dataLength_appendRows] at hCopy
      intro _
      rw [List.filterMap_append, List.filterMap_cons_some hRow, List.filterMap_nil, List.flatten_append,
        List.length_append, List.flatten_singleton, ← Nat.add_assoc]
      exact hCopy
  rw [blockRows_eq_visible hInt]
  exact hPrefix _ List.prefix_rfl

variable (snippet) in
/-- Every copy that the run comes to ends inside `raw_data`. -/
def CopiesFit (blocks : List SortedEntries) (start : ScanState) : Prop :=
  ∀ s' row, Copies snippet blocks start s' row → s'.data.dataLength + row.length ≤ bufferSize

theorem CopiesFit.room (hInt : IntNumber snippet) {before after : List SortedEntries} {block : SortedEntries}
    {start s : ScanState} (hConvert : Convertible snippet block)
    (h : CopiesFit snippet (before ++ block :: after) start)
    (hRun : before.foldlM (fun s block => readDataBlock snippet block s) start = some s) :
    Room s.data (blockRows snippet block) := by
  refine room_of_copies hInt hConvert fun es e s' row hEs hLoop hRow => h s' row ?_
  exact ⟨before, block, after, rfl, s, hRun, es, e, hEs.trans (List.takeWhile_prefix _), hLoop,
    own_of_front hEs e (by simp), hRow⟩

/-- Where every copy fits the run goes through. -/
theorem CopiesFit.isSome (hInt : IntNumber snippet) {before after : List SortedEntries} {start : ScanState}
    (hConvert : ∀ block ∈ before, Convertible snippet block) (h : CopiesFit snippet (before ++ after) start) :
    (before.foldlM (fun s block => readDataBlock snippet block s) start).isSome := by
  induction before using List.reverseRecOn generalizing after with
  | nil => rfl
  | append_singleton before block ih =>
    rw [List.forall_mem_append, List.forall_mem_singleton] at hConvert
    rw [List.append_assoc, List.singleton_append] at h
    obtain ⟨s, hRun⟩ := Option.isSome_iff_exists.mp (ih hConvert.1 h)
    rw [List.foldlM_append, hRun, Option.bind_eq_bind, Option.bind_some, List.foldlM_cons,
      (readDataBlock_eq_some_iff hInt hConvert.2).mpr ⟨h.room hInt hConvert.2 hRun, rfl⟩]
    rfl

/-- No copy goes further than all the rows of the blocks would. -/
theorem Copies.dataLength_le (hInt : IntNumber snippet) {blocks : List SortedEntries} {start s' : ScanState}
    {row : Bytes} (hConvert : ∀ block ∈ blocks, Convertible snippet block) (h : Copies snippet blocks start s' row) :
    s'.data.dataLength + row.length ≤ start.data.dataLength + (blocks.flatMap (blockRows snippet)).flatten.length := by
  obtain ⟨before, block, after, rfl, s, hRun, es, e, hEs, hLoop, hOwn, hRow⟩ := h
  rw [List.forall_mem_append, List.forall_mem_cons] at hConvert
  obtain ⟨hBefore, hBlock, -⟩ := hConvert
  obtain rfl := eq_foldl_blockStep hInt hBefore hRun
  have hStart := dataLength_run_le snippet start before
  -- a key of another table would have ended the loop before `e`
  have hNone : ∀ x ∈ es, x.tableIndexNumber = snippet.schemaInfo.tableIndexNumber := by
    intro x hx
    by_contra hOther
    rw [blockLoop_eq_scanLoop, scanLoop_eq_some_iff] at hLoop
    obtain ⟨rows, -, -, hEnd⟩ := hLoop
    rw [if_pos ⟨x, hx, hOther⟩] at hEnd
    cases hEnd
  have hFront : es ++ [e] <+: ownEntries snippet block :=
    prefix_takeWhile_of_forall hEs (by simpa [or_imp, forall_and] using ⟨hNone, hOwn⟩)
  have hRows := (hFront.filterMap (scanRow snippet.schemaInfo)).sublist.flatten.length_le
  rw [List.filterMap_append, List.filterMap_cons_some hRow, List.filterMap_nil, List.flatten_append, List.length_append,
    List.flatten_singleton, ownEntries, ← blockRows_eq_visible hInt] at hRows
  have hOwnFront := (List.prefix_append es [e]).trans hFront
  obtain ⟨-, hEnd⟩ := (blockLoop_own_iff hNone (isSome_of_front hBlock hOwnFront)).mp hLoop
  obtain ⟨-, rfl⟩ := Prod.mk.inj hEnd
  rw [dataLength_appendRows, List.flatMap_append, List.flatMap_cons, List.flatten_append, List.flatten_append,
    List.length_append, List.length_append]
  omega

/-- The last copy of a batch ends where all its rows end. -/
theorem CopiesFit.total_le (hInt : IntNumber snippet) {blocks : List SortedEntries} {left : Int}
    {enqueued : List Enqueued} (hConvert : ∀ block ∈ blocks, Convertible snippet block)
    (hBatch : OneBatch snippet blocks ⟨Data.clear, left, enqueued⟩)
    (h : CopiesFit snippet blocks ⟨Data.clear, left, enqueued⟩) :
    (blocks.flatMap (blockRows snippet)).flatten.length ≤ bufferSize := by
  induction blocks using List.reverseRecOn with
  | nil => exact Nat.zero_le _
  | append_singleton before block =>
    rw [List.forall_mem_append, List.forall_mem_singleton] at hConvert
    obtain ⟨s, hRun⟩ := Option.isSome_iff_exists.mp (h.isSome hInt hConvert.1)
    have hOpen := hBatch s (by rwa [List.dropLast_concat])
    have hLength := dataLength_le_of_run hInt hConvert.1 (Nat.zero_le _) hRun
    have hRoom := (room_iff hLength).mp (h.room hInt hConvert.2 hRun)
    obtain rfl := eq_foldl_blockStep hInt hConvert.1 hRun
    rw [dataLength_run hOpen] at hRoom
    rw [List.flatMap_append, List.flatten_append, List.length_append, List.flatMap_singleton]
    exact (Nat.zero_add _).symm.trans_le ((Nat.add_assoc _ _ _).symm.trans_le hRoom)

end Inside

/-- The rows of a batch fit the buffer, at every copy, exactly when together they are not longer than the buffer. -/
theorem batch_fits_iff (snippet : Snippet) (blocks : List SortedEntries) (left : Int) (enqueued : List Enqueued)
    (hInt : IntNumber snippet) (hConvert : ∀ block ∈ blocks, Convertible snippet block)
    (hBatch : OneBatch snippet blocks ⟨Data.clear, left, enqueued⟩) :
    CopiesFit snippet blocks ⟨Data.clear, left, enqueued⟩ ↔
      (blocks.flatMap (blockRows snippet)).flatten.length ≤ bufferSize := by
  constructor
  · exact CopiesFit.total_le hInt hConvert hBatch
  · intro hTotal s' row hCopy
    exact (hCopy.dataLength_le hInt hConvert).trans ((Nat.zero_add _).trans_le hTotal)

theorem two_orders_fit :
    OneBatch twoBlocksSnippet [oneOrder 2, orderThenLineitem] ⟨Data.clear, 2, []⟩ ∧
      CopiesFit twoBlocksSnippet [oneOrder 2, orderThenLineitem] ⟨Data.clear, 2, []⟩ := by
  have hConvert : ∀ block ∈ [oneOrder 2, orderThenLineitem], Convertible twoBlocksSnippet block := by decide
  have hBatch : OneBatch twoBlocksSnippet [oneOrder 2, orderThenLineitem] ⟨Data.clear, 2, []⟩ :=
    oneBatch_of_not_boundary ⟨by decide, by decide⟩ hConvert (by decide) (by decide) (by decide)
  exact ⟨hBatch, (batch_fits_iff twoBlocksSnippet [oneOrder 2, orderThenLineitem] 2 [] ⟨by decide, by decide⟩ hConvert
    hBatch).mpr (by decide)⟩

def wideOrders : List SortedEntries := (List.range 100).map fun n => wideOrder (UInt8.ofNat n)

theorem length_wideOrders_eq : wideOrders.length = 100 := by rw [wideOrders, List.length_map, List.length_range]

theorem mem_wideOrders {block : SortedEntries} (h : block ∈ wideOrders) : ∃ orderkey, block = wideOrder orderkey := by
  obtain ⟨n, -, rfl⟩ := List.mem_map.mp h
  exact ⟨_, rfl⟩

theorem length_rows_wideOrders (n : Nat) :
    (((List.range n).map fun k => wideOrder (UInt8.ofNat k)).flatMap (blockRows wideSnippet)).flatten.length =
      4097 * n := by
  induction n with
  | zero => rfl
  | succ n ih =>
    rw [List.range_succ, List.map_append, List.flatMap_append, List.flatten_append, List.length_append, ih,
      List.map_singleton, List.flatMap_singleton, blockRows_wideOrder, List.flatten_singleton, length_wideRow]
    rfl

/-- A hundred blocks with one row each are one batch, and one of the copies runs over the end of the buffer. -/
theorem wide_orders_overflow :
    OneBatch wideSnippet wideOrders ⟨Data.clear, 100, []⟩ ∧
      ∃ s' row, Copies wideSnippet wideOrders ⟨Data.clear, 100, []⟩ s' row ∧
        bufferSize < s'.data.dataLength + row.length := by
  have hConvert : ∀ block ∈ wideOrders, Convertible wideSnippet block := by
    intro block hBlock
    obtain ⟨orderkey, rfl⟩ := mem_wideOrders hBlock
    exact convertible_wideOrder orderkey
  have hBoundary : ∀ block ∈ wideOrders.dropLast, ¬Boundary wideSnippet block := by
    intro block hBlock
    obtain ⟨orderkey, rfl⟩ := mem_wideOrders (List.mem_of_mem_dropLast hBlock)
    exact not_boundary_wideOrder orderkey
  have hBatch : OneBatch wideSnippet wideOrders ⟨Data.clear, 100, []⟩ :=
    oneBatch_of_not_boundary ⟨by decide, by decide⟩ hConvert hBoundary (by rw [length_wideOrders_eq]; rfl)
      (by rw [length_wideOrders_eq]; rfl)
  refine ⟨hBatch, ?_⟩
  by_contra hNone
  push Not at hNone
  have hTotal := CopiesFit.total_le ⟨by decide, by decide⟩ hConvert hBatch hNone
  rw [wideOrders, length_rows_wideOrders] at hTotal
  exact absurd hTotal (by decide)

end CsdWorker.Scan
