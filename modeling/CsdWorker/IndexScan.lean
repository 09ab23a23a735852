import CsdWorker.BatchAppend

/-! # The scan of index blocks

`Scan::index_block_scan` without seek keys and the full-scan branch of `Scan::read_index_block`. It starts at the first
key of a block and not at the first key of the table, and a row of another table charges the batch with the blocks that
are left, in place of those it had.
-/

namespace CsdWorker.Scan

open Memory Grouping

set_option autoImplicit false

def indexRow (schemaInfo : SchemaInfo) (e : Entry) : Option Bytes := do
  let convertedKey ← convertKeyToValue e.key schemaInfo
  pure (convertedKey ++ e.value)

def indexLoop (snippet : Snippet) : List Entry → ScanState → Option (Bool × ScanState)
  | [], s => some (false, s)
  | e :: es, s =>
    if e.tableIndexNumber ≠ snippet.schemaInfo.tableIndexNumber then
      some (true,
        { data := Data.clear, leftBlockCount := 0,
          enqueued := s.enqueued ++
            [enqueueScanResult snippet { s.data with currentBlockCount := s.leftBlockCount }.pushEnd] })
    else do
      let row ← indexRow snippet.schemaInfo e
      let data ← copyRow s.data row
      indexLoop snippet es { s with data := data }

/-- The end of the function is that of `read_data_block`. -/
def readIndexBlock (snippet : Snippet) (block : List Entry) (s : ScanState) : Option ScanState := do
  let (returned, s) ← indexLoop snippet block s
  pure (if returned then s else countBlock snippet s)

/-- `blocks` gives the contents of a block by its offsets and lengths. -/
def indexBlocks (blocks : List Nat → List Nat → List Entry) (snippet : Snippet) : List (List Entry) :=
  (snippet.blockInfo.blockList.flatMap blockReads).map fun read => blocks read.1 read.2

def indexBlockScan (blocks : List Nat → List Nat → List Entry) (snippet : Snippet) : Option (List Enqueued) := do
  let s ← (indexBlocks blocks snippet).foldlM (fun s block => readIndexBlock snippet block s)
    ⟨Data.clear, snippet.resultInfo.csdBlockCount, []⟩
  pure s.enqueued

theorem indexRow_eq_scanRow (schemaInfo : SchemaInfo) (e : Entry) : indexRow schemaInfo e = scanRow schemaInfo e := by
  rw [indexRow, scanRow]
  split
  · rfl
  · rename_i hNone
    rw [convertKeyToValue, List.length_eq_zero_iff.mp (not_not.mp hNone)]
    rfl

section Loop
variable (snippet : Snippet)

def indexBoundary (s : ScanState) : ScanState :=
  { data := Data.clear, leftBlockCount := 0,
    enqueued := s.enqueued ++
      [enqueueScanResult snippet { s.data with currentBlockCount := s.leftBlockCount }.pushEnd] }

theorem indexLoop_eq_scanLoop (es : List Entry) (s : ScanState) :
    indexLoop snippet es s = scanLoop snippet (indexBoundary snippet) es s := by
  induction es generalizing s with
  | nil => rfl
  | cons e es ih => simp only [indexLoop, scanLoop, ih, indexBoundary, indexRow_eq_scanRow]

theorem readIndexBlock_eq_scanBlock (block : List Entry) (s : ScanState) :
    readIndexBlock snippet block s = scanBlock snippet (indexBoundary snippet) block s := by
  rw [readIndexBlock, scanBlock, indexLoop_eq_scanLoop]

end Loop

section Rows
variable (snippet : Snippet)

def SameRows (block : SortedEntries) (s : ScanState) : Prop :=
  ∀ rows, Appends snippet (readIndexBlock snippet block.entries s) s rows ↔
    Appends snippet (readDataBlock snippet block s) s rows

variable {snippet} {s : ScanState} {rows : List Bytes}

theorem appends_scanBlock_iff {boundary : ScanState → ScanState} {es : List Entry}
    (hBoundary : ∀ {rows : List Bytes} {data : Data}, Appended s.data rows data →
      Extends snippet s rows (boundary { s with data := data })) :
    Appends snippet (scanBlock snippet boundary es s) s rows ↔ ownRows snippet es = some rows ∧ Room s.data rows := by
  have hExtends : ∀ rows, Extends snippet s rows
      (if Foreign snippet es then boundary { s with data := appendRows s.data rows }
      else countBlock snippet { s with data := appendRows s.data rows }) := by
    intro rows
    have hRows := appended_appendRows rows s.data
    split
    · exact hBoundary hRows
    · exact extends_countBlock hRows
  simp only [Appends, scanBlock_eq_some_iff]
  constructor
  · rintro ⟨s', ⟨own, hOwn, hRoom, rfl⟩, hRows⟩
    obtain rfl := (hExtends own).unique hRows
    exact ⟨hOwn, hRoom⟩
  · rintro ⟨hOwn, hRoom⟩
    exact ⟨_, ⟨rows, hOwn, hRoom, rfl⟩, hExtends rows⟩

theorem appends_readIndexBlock_iff {block : List Entry} :
    Appends snippet (readIndexBlock snippet block s) s rows ↔ ownRows snippet block = some rows ∧ Room s.data rows := by
  rw [readIndexBlock_eq_scanBlock]
  exact appends_scanBlock_iff fun h => .handedOn (h.charge _)

theorem appends_readDataBlock_iff {block : SortedEntries} :
    Appends snippet (readDataBlock snippet block s) s rows ↔
      ownRows snippet (visible snippet block) = some rows ∧ Room s.data rows := by
  rw [readDataBlock_eq_scanBlock]
  exact appends_scanBlock_iff fun h => .handedOn (h.charge _)

theorem sameRows_of_ownRows {block : SortedEntries}
    (h : ownRows snippet block.entries = ownRows snippet (visible snippet block)) : SameRows snippet block s := by
  intro rows
  rw [appends_readIndexBlock_iff, appends_readDataBlock_iff, h]

/-- Rows that are not there need no room. -/
theorem sameRows_iff_of_none {block : SortedEntries} (h : ownRows snippet block.entries = some []) :
    SameRows snippet block s ↔ ownRows snippet (visible snippet block) = some [] := by
  constructor
  · intro hSame
    exact (appends_readDataBlock_iff.mp ((hSame []).mp (appends_readIndexBlock_iff.mpr ⟨h, room_nil _⟩))).1
  · intro hNone
    exact sameRows_of_ownRows (h.trans hNone.symm)

theorem ownRows_eq_nil_iff {es : List Entry} :
    ownRows snippet es = some [] ↔
      (es.takeWhile fun e => e.tableIndexNumber = snippet.schemaInfo.tableIndexNumber) = [] := by
  rw [ownRows]
  cases es.takeWhile fun e => decide (e.tableIndexNumber = snippet.schemaInfo.tableIndexNumber) with
  | nil => exact iff_of_true rfl rfl
  | cons e es =>
    refine iff_of_false ?_ (List.cons_ne_nil _ _)
    rw [List.mapM_cons]
    intro h
    obtain ⟨row, -, hRest⟩ := Option.bind_eq_some_iff.mp h
    obtain ⟨rows, -, hCons⟩ := Option.bind_eq_some_iff.mp hRest
    cases hCons

theorem foreign_of_below (hInt : IntNumber snippet) {e : Entry}
    (h : e.key < generateSeekKey snippet.schemaInfo.tableIndexNumber) :
    e.tableIndexNumber ≠ snippet.schemaInfo.tableIndexNumber := by
  rw [key_lt_seekKey_iff] at h
  rw [ne_eq, tableIndexNumber_eq_iff e hInt.1 hInt.2]
  omega

end Rows

/-- The two calls add the same rows exactly when the block does not begin with a key of a preceding table, or has no
row of the table at all. -/
theorem sameRows_iff (snippet : Snippet) (block : SortedEntries) (s : ScanState) (hInt : IntNumber snippet) :
    SameRows snippet block s ↔
      (∀ e ∈ block.entries.head?, ¬e.key < generateSeekKey snippet.schemaInfo.tableIndexNumber) ∨
        ∀ e ∈ block.entries, e.tableIndexNumber ≠ snippet.schemaInfo.tableIndexNumber := by
  have hOwn := filter_eq_takeWhile hInt block.sorted
  rw [← seek, ← visible] at hOwn
  cases hEntries : block.entries with
  | nil =>
    refine iff_of_true (sameRows_of_ownRows ?_) (Or.inl (by simp))
    rw [visible, seek, hEntries]
    rfl
  | cons e es =>
    by_cases hBelow : e.key < generateSeekKey snippet.schemaInfo.tableIndexNumber
    · have hNone : ownRows snippet block.entries = some [] := by
        rw [hEntries, ownRows_eq_nil_iff, List.takeWhile_cons_of_neg (by simpa using foreign_of_below hInt hBelow)]
      have hLeft : ¬∀ x ∈ (e :: es).head?, ¬x.key < generateSeekKey snippet.schemaInfo.tableIndexNumber := by
        intro hAll
        exact hAll e rfl hBelow
      rw [sameRows_iff_of_none hNone, ownRows_eq_nil_iff, ← hOwn, hEntries, List.filter_eq_nil_iff, or_iff_right hLeft]
      simp only [decide_eq_true_eq]
    · have hVisible : visible snippet block = e :: es := by
        rw [visible, seek, hEntries, List.dropWhile_cons_of_neg (by simpa using hBelow)]
      refine iff_of_true (sameRows_of_ownRows (by rw [hVisible, hEntries])) (Or.inl ?_)
      intro x hx
      obtain rfl := Option.some_inj.mp hx
      exact hBelow

theorem order_first_same_rows : SameRows twoBlocksSnippet orderThenLineitem ⟨Data.clear, 2, []⟩ :=
  (sameRows_iff twoBlocksSnippet orderThenLineitem ⟨Data.clear, 2, []⟩ ⟨by decide, by decide⟩).mpr (Or.inl (by decide))

/-- A row of the table 255 in front of a row of the table 256. -/
def nationThenOrder : SortedEntries := ⟨[⟨[0, 0, 0, 255, 0x80, 0, 0, 1], [3], by simp⟩, ordersEntry 1], by decide⟩

theorem order_behind_nation_lost :
    Appends twoBlocksSnippet (readDataBlock twoBlocksSnippet nationThenOrder ⟨Data.clear, 2, []⟩) ⟨Data.clear, 2, []⟩
        [[1, 0, 0, 0, 7, 8]] ∧
      Appends twoBlocksSnippet (readIndexBlock twoBlocksSnippet nationThenOrder.entries ⟨Data.clear, 2, []⟩)
        ⟨Data.clear, 2, []⟩ [] ∧
      ¬SameRows twoBlocksSnippet nationThenOrder ⟨Data.clear, 2, []⟩ := by
  refine ⟨appends_readDataBlock_iff.mpr (by decide), appends_readIndexBlock_iff.mpr (by decide), ?_⟩
  rw [sameRows_iff_of_none (by decide)]
  decide

/-- The results are charged with `total` blocks and each with at least one, so the countdown ends with the last. -/
structure CountsDown (total : Int) (enqueued : List Enqueued) : Prop where
  positive : ∀ o ∈ enqueued, 0 < o.result.data.currentBlockCount
  blocks : blocksOf enqueued = total

section Count
variable {snippet : Snippet} {total : Int}

theorem currentBlockCount_enqueueScanResult (snippet : Snippet) (data : Data) :
    (enqueueScanResult snippet data).result.data.currentBlockCount = data.currentBlockCount := by
  obtain ⟨n, hData⟩ := enqueueScanResult_data snippet data
  rw [hData]

theorem currentBlockCount_appendRows (rows : List Bytes) (d : Data) :
    (appendRows d rows).currentBlockCount = d.currentBlockCount := by
  induction rows generalizing d with
  | nil => rfl
  | cons row rows ih => exact ih (appendScannedRow d row)

/-- `n` blocks are counted, those of the open batch by its own counter. -/
structure CountedTo (total : Int) (n : Nat) (s : ScanState) : Prop where
  current : s.data.currentBlockCount = (n % numOfBlocks : Nat)
  left : s.leftBlockCount = total - n
  positive : ∀ o ∈ s.enqueued, 0 < o.result.data.currentBlockCount
  blocks : blocksOf s.enqueued + (n % numOfBlocks : Nat) = n

theorem CountedTo.appendRows {n : Nat} {s : ScanState} (h : CountedTo total n s) (rows : List Bytes) :
    CountedTo total n { s with data := appendRows s.data rows } :=
  ⟨(currentBlockCount_appendRows rows s.data).trans h.current, h.left, h.positive, h.blocks⟩

/-- The blocks in the open batch are counted by what the batch is handed on with. -/
theorem CountedTo.countsDown_iff {n : Nat} {s : ScanState} (h : CountedTo total n s) {o : Enqueued} (blocks : Int)
    (hPositive : 0 < o.result.data.currentBlockCount) :
    CountsDown blocks (s.enqueued ++ [o]) ↔ n + o.result.data.currentBlockCount = blocks + (n % numOfBlocks : Nat) := by
  have hCounted := h.blocks
  constructor
  · intro hDown
    have hBlocks := hDown.blocks
    rw [blocksOf_append] at hBlocks
    omega
  · intro hCharge
    refine ⟨List.forall_mem_append.mpr ⟨h.positive, List.forall_mem_singleton.mpr hPositive⟩, ?_⟩
    rw [blocksOf_append]
    omega

variable (snippet) in
theorem CountedTo.flush {n : Nat} {s : ScanState} (h : CountedTo total n s) :
    CountsDown (n + 1) (s.enqueued ++ [flushBatch snippet s.data 1]) := by
  have hCharge : (flushBatch snippet s.data 1).result.data.currentBlockCount = s.data.currentBlockCount + 1 :=
    currentBlockCount_enqueueScanResult _ _
  rw [h.current] at hCharge
  refine (h.countsDown_iff _ (by omega)).mpr ?_
  omega

theorem countedTo_countBlock {n : Nat} {s : ScanState} (h : CountedTo total n s) (hMore : (n : Int) + 1 < total) :
    CountedTo total (n + 1) (countBlock snippet s) := by
  have hLeft := h.left
  have hCurrent := h.current
  have hBlocks := h.blocks
  rw [numOfBlocks] at hCurrent hBlocks
  rw [countBlock]
  split
  · rename_i hFull
    have hZero : (n + 1) % numOfBlocks = 0 := by
      rw [numOfBlocks] at hFull ⊢
      omega
    have hFlush := h.flush snippet
    refine ⟨by rw [hZero]; rfl, by simp only; omega, hFlush.positive, ?_⟩
    rw [hFlush.blocks, hZero]
    omega
  · rename_i hOpen
    have hNext : (n + 1) % numOfBlocks = n % 100 + 1 := by
      rw [numOfBlocks] at hOpen ⊢
      omega
    refine ⟨by rw [hNext]; simp only; omega, by simp only; omega, h.positive, ?_⟩
    rw [hNext]
    simp only
    omega

theorem countsDown_countBlock {n : Nat} {s : ScanState} (h : CountedTo total n s) (hLast : (n : Int) + 1 = total) :
    CountsDown total (countBlock snippet s).enqueued := by
  have hLeft := h.left
  rw [countBlock, if_pos (Or.inr (by omega)), ← hLast]
  exact h.flush snippet

/-- At a boundary in the last block the batch counts one block only. -/
theorem countsDown_indexBoundary_iff {n : Nat} {s : ScanState} (h : CountedTo total n s)
    (hLast : (n : Int) + 1 = total) :
    CountsDown total (indexBoundary snippet s).enqueued ↔ n % numOfBlocks = 0 := by
  have hLeft := h.left
  have hCharge : (enqueueScanResult snippet
      { s.data with currentBlockCount := s.leftBlockCount }.pushEnd).result.data.currentBlockCount = s.leftBlockCount :=
    currentBlockCount_enqueueScanResult _ _
  refine (h.countsDown_iff total (by omega)).trans ?_
  omega

/-- A run that comes to its end has read the rows of every block. -/
theorem isSome_ownRows_of_run {blocks : List (List Entry)} {s s' : ScanState}
    (h : blocks.foldlM (fun s block => readIndexBlock snippet block s) s = some s') :
    ∀ block ∈ blocks, (ownRows snippet block).isSome := by
  induction blocks generalizing s with
  | nil => simp
  | cons block blocks ih =>
    obtain ⟨s₁, hFirst, hRest⟩ := Option.bind_eq_some_iff.mp h
    replace hFirst : readIndexBlock snippet block s = some s₁ := hFirst
    rw [readIndexBlock_eq_scanBlock, scanBlock_eq_some_iff] at hFirst
    obtain ⟨rows, hRows, -⟩ := hFirst
    exact List.forall_mem_cons.mpr ⟨Option.isSome_of_eq_some hRows, ih hRest⟩

theorem countedTo_run {blocks : List (List Entry)} (hOwn : ∀ block ∈ blocks, ¬Foreign snippet block) {n : Nat}
    {s s' : ScanState} (h : CountedTo total n s) (hMore : (n : Int) + blocks.length < total)
    (hRun : blocks.foldlM (fun s block => readIndexBlock snippet block s) s = some s') :
    CountedTo total (n + blocks.length) s' := by
  induction blocks generalizing n s with
  | nil =>
    obtain rfl := Option.some_inj.mp hRun
    exact h
  | cons block blocks ih =>
    obtain ⟨hBlock, hRest⟩ := List.forall_mem_cons.mp hOwn
    rw [List.length_cons] at hMore
    obtain ⟨s₁, hFirst, hRun⟩ := Option.bind_eq_some_iff.mp hRun
    replace hFirst : readIndexBlock snippet block s = some s₁ := hFirst
    rw [readIndexBlock_eq_scanBlock, scanBlock_eq_some_iff] at hFirst
    obtain ⟨rows, -, -, rfl⟩ := hFirst
    rw [if_neg hBlock] at hRun
    have hStep := ih hRest (countedTo_countBlock (h.appendRows rows) (by omega)) (by push_cast; omega) hRun
    rwa [List.length_cons, Nat.add_comm blocks.length, ← Nat.add_assoc]

theorem countsDown_run_iff {blocks : List (List Entry)} (hOwn : ∀ block ∈ blocks.dropLast, ¬Foreign snippet block)
    {s : ScanState}
    (hRun : blocks.foldlM (fun s block => readIndexBlock snippet block s) ⟨Data.clear, blocks.length, []⟩ = some s) :
    CountsDown blocks.length s.enqueued ↔
      (∀ block ∈ blocks, ¬Foreign snippet block) ∨ blocks.length % numOfBlocks = 1 := by
  have hStart : CountedTo blocks.length 0 ⟨Data.clear, blocks.length, []⟩ := ⟨rfl, by simp, by simp, rfl⟩
  induction blocks using List.reverseRecOn with
  | nil =>
    obtain rfl := Option.some_inj.mp hRun
    exact iff_of_true ⟨by simp, rfl⟩ (Or.inl (by simp))
  | append_singleton before block =>
    rw [List.dropLast_concat] at hOwn
    rw [List.foldlM_append] at hRun
    obtain ⟨s₁, hBefore, hLast⟩ := Option.bind_eq_some_iff.mp hRun
    have hLength : ((before ++ [block]).length : Int) = before.length + 1 := by simp
    have hCounted := countedTo_run hOwn hStart (by omega) hBefore
    rw [Nat.zero_add] at hCounted
    rw [List.foldlM_cons, readIndexBlock_eq_scanBlock] at hLast
    obtain ⟨s₂, hBlock, hEnd⟩ := Option.bind_eq_some_iff.mp hLast
    obtain rfl := Option.some_inj.mp hEnd
    obtain ⟨rows, -, -, rfl⟩ := (scanBlock_eq_some_iff snippet _).mp hBlock
    replace hCounted := hCounted.appendRows rows
    rw [List.forall_mem_append, List.forall_mem_singleton]
    split
    · rename_i hForeign
      rw [countsDown_indexBoundary_iff hCounted hLength.symm, List.length_append, List.length_singleton, numOfBlocks]
      constructor
      · intro hZero
        exact Or.inr (by omega)
      · rintro (hNone | hOne)
        · exact absurd hForeign hNone.2
        · omega
    · rename_i hNone
      exact iff_of_true (countsDown_countBlock hCounted hLength.symm) (Or.inl ⟨hOwn, hNone⟩)

end Count

section Fit
variable (snippet : Snippet)

/-- The room that the rows in front of the first key of another table take. -/
def ownLength (block : List Entry) : Nat := ((ownRows snippet block).getD []).flatten.length

/-- The rows of each hundred blocks, which make one batch, fit the buffer together. -/
def IndexBatchesFit (blocks : List (List Entry)) : Prop := GroupsFit (ownLength snippet) numOfBlocks bufferSize blocks

theorem boundaryLast_of_dropLast {blocks : List (List Entry)} (h : ∀ block ∈ blocks.dropLast, ¬Foreign snippet block) :
    BoundaryLast snippet id blocks := by
  induction blocks with
  | nil => trivial
  | cons block blocks ih =>
    cases blocks with
    | nil => exact ⟨by simp, trivial⟩
    | cons next blocks =>
      obtain ⟨hFirst, hRest⟩ := List.forall_mem_cons.mp h
      exact ⟨fun hForeign => absurd hForeign hFirst, ih hRest⟩

theorem isSome_indexScan_iff {blocks : List (List Entry)} (hSome : ∀ block ∈ blocks, (ownRows snippet block).isSome)
    (hOwn : ∀ block ∈ blocks.dropLast, ¬Foreign snippet block) :
    (blocks.foldlM (fun s block => readIndexBlock snippet block s) ⟨Data.clear, blocks.length, []⟩).isSome ↔
      IndexBatchesFit snippet blocks := by
  simp only [readIndexBlock_eq_scanBlock]
  refine isSome_scan_iff (fun block hBlock => ?_) (boundaryLast_of_dropLast snippet hOwn)
  obtain ⟨rows, hRows⟩ := Option.isSome_iff_exists.mp (hSome block hBlock)
  exact ⟨rows, hRows, by rw [ownLength, hRows, Option.getD_some]⟩

end Fit

/-- The results count down to zero exactly when every key that is looked at can be converted, every batch fits the
buffer, and a key of another table comes in no block or in the first block of a batch. -/
theorem indexBlockScan_countsDown_iff (blocks : List Nat → List Nat → List Entry) (snippet : Snippet)
    (hBlocks : snippet.resultInfo.csdBlockCount = describedBlocks snippet.blockInfo.blockList)
    (hOwn : ∀ block ∈ (indexBlocks blocks snippet).dropLast, ¬Foreign snippet block) :
    (∃ enqueued, indexBlockScan blocks snippet = some enqueued ∧ CountsDown snippet.resultInfo.csdBlockCount enqueued) ↔
      (∀ block ∈ indexBlocks blocks snippet, (ownRows snippet block).isSome) ∧
        IndexBatchesFit snippet (indexBlocks blocks snippet) ∧
        ((∀ block ∈ indexBlocks blocks snippet, ¬Foreign snippet block) ∨
          (indexBlocks blocks snippet).length % numOfBlocks = 1) := by
  have hLength : snippet.resultInfo.csdBlockCount = (indexBlocks blocks snippet).length := by
    rw [hBlocks, indexBlocks, List.length_map, length_blockReads]
  rw [indexBlockScan, hLength]
  constructor
  · rintro ⟨enqueued, hScan, hDown⟩
    obtain ⟨s, hRun, hEnd⟩ := Option.bind_eq_some_iff.mp hScan
    obtain rfl := Option.some_inj.mp hEnd
    have hSome := isSome_ownRows_of_run hRun
    exact ⟨hSome, (isSome_indexScan_iff snippet hSome hOwn).mp (Option.isSome_of_eq_some hRun),
      (countsDown_run_iff hOwn hRun).mp hDown⟩
  · rintro ⟨hSome, hFit, hCount⟩
    obtain ⟨s, hRun⟩ := Option.isSome_iff_exists.mp ((isSome_indexScan_iff snippet hSome hOwn).mpr hFit)
    exact ⟨s.enqueued, by rw [hRun]; rfl, (countsDown_run_iff hOwn hRun).mpr hCount⟩

/-- Contents of the two blocks of `twoBlocksSnippet`. -/
def twoIndexBlocks (first second : List Entry) : List Nat → List Nat → List Entry := fun offset _ =>
  if offset = [0] then first else second

theorem own_blocks_count_down :
    ∃ enqueued, indexBlockScan (twoIndexBlocks [ordersEntry 1] [ordersEntry 2]) twoBlocksSnippet = some enqueued ∧
      CountsDown 2 enqueued :=
  (indexBlockScan_countsDown_iff (twoIndexBlocks [ordersEntry 1] [ordersEntry 2]) twoBlocksSnippet rfl (by decide)).mpr
    ⟨by decide, groupsFit_of_total (by decide), Or.inl (by decide)⟩

/-- A boundary in the second of two blocks: the batch of two blocks is charged with one. -/
theorem boundary_counts_one_block :
    (indexBlockScan (twoIndexBlocks [ordersEntry 1] [ordersEntry 2, lineitemEntry 1]) twoBlocksSnippet).map blocksOf =
        some 1 ∧
      ¬∃ enqueued, indexBlockScan (twoIndexBlocks [ordersEntry 1] [ordersEntry 2, lineitemEntry 1]) twoBlocksSnippet =
        some enqueued ∧ CountsDown 2 enqueued := by
  have hOne : (indexBlockScan (twoIndexBlocks [ordersEntry 1] [ordersEntry 2, lineitemEntry 1]) twoBlocksSnippet).map
      blocksOf = some 1 := by decide
  refine ⟨hOne, ?_⟩
  rintro ⟨enqueued, hScan, hDown⟩
  rw [hScan, Option.map_some, hDown.blocks] at hOne
  cases hOne

end CsdWorker.Scan
