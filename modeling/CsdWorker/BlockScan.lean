import CsdWorker.Lib.Grouping
import CsdWorker.Scan

/-! # The scan of data blocks

`Scan::data_block_full_scan` and the full-scan branch of `Scan::read_data_block`. A row of another
table behind the rows of the snippet charges all remaining blocks to the batch, and the blocks that
follow are still fed to the loop. A batch is bounded by the number of its blocks and not by its bytes.
-/

namespace CsdWorker.Scan

open Memory Endian Grouping

set_option autoImplicit false

/-- `Iterator::Seek`: the entries from the first key that is not below the target. -/
def seek (target : Bytes) (block : SortedEntries) : List Entry :=
  block.entries.dropWhile fun e => decide (e.key < target)

/-- The loop over the entries of a block; the flag says that it ended by the early return. -/
def blockLoop (snippet : Snippet) : List Entry → ScanState → Option (Bool × ScanState)
  | [], s => some (false, s)
  | e :: es, s =>
    if e.tableIndexNumber ≠ snippet.schemaInfo.tableIndexNumber then
      some (true, { data := Data.clear, leftBlockCount := 0,
                    enqueued := s.enqueued ++ [flushBatch snippet s.data s.leftBlockCount] })
    else do
      let row ← scanRow snippet.schemaInfo e
      let data ← copyRow s.data row
      blockLoop snippet es { s with data := data }

/-- The end of the function: one more block, and the flush of a full or last batch. -/
def countBlock (snippet : Snippet) (s : ScanState) : ScanState :=
  if s.data.currentBlockCount + 1 = numOfBlocks ∨ s.leftBlockCount - 1 = 0 then
    { data := Data.clear, leftBlockCount := s.leftBlockCount - 1,
      enqueued := s.enqueued ++ [flushBatch snippet s.data 1] }
  else
    { s with
      data := { s.data with currentBlockCount := s.data.currentBlockCount + 1 }
      leftBlockCount := s.leftBlockCount - 1 }

def readDataBlock (snippet : Snippet) (block : SortedEntries) (s : ScanState) : Option ScanState := do
  let (returned, s) ←
    blockLoop snippet (seek (generateSeekKey snippet.schemaInfo.tableIndexNumber) block) s
  pure (if returned then s else countBlock snippet s)

def singleReads : Nat → List Nat → List (List Nat × List Nat)
  | _, [] => []
  | offset, length :: lengths => ([offset], [length]) :: singleReads ((offset + length) % 2 ^ 64) lengths

def blockReads (block : Block) : List (List Nat × List Nat) :=
  match block.offset with
  | [offset] => singleReads offset block.length
  | _ => [(block.offset, block.length)]

/-- `blocks` gives the contents of a block by its offsets and lengths. -/
def listedBlocks (blocks : List Nat → List Nat → SortedEntries) (snippet : Snippet) : List SortedEntries :=
  (snippet.blockInfo.blockList.flatMap blockReads).map fun read => blocks read.1 read.2

/-- A batch that is still open when the list ends is not enqueued. -/
def dataBlockFullScan (blocks : List Nat → List Nat → SortedEntries) (snippet : Snippet) :
    Option (List Enqueued) := do
  let s ← (listedBlocks blocks snippet).foldlM (fun s block => readDataBlock snippet block s)
    ⟨Data.clear, snippet.resultInfo.csdBlockCount, []⟩
  pure s.enqueued

def describedBlocks (blockList : List Block) : Nat :=
  (blockList.map fun block => if block.offset.length = 1 then block.length.length else 1).sum

theorem length_singleReads (offset : Nat) (lengths : List Nat) :
    (singleReads offset lengths).length = lengths.length := by
  induction lengths generalizing offset with
  | nil => rfl
  | cons length lengths ih => rw [singleReads, List.length_cons, ih, List.length_cons]

theorem length_blockReads (blockList : List Block) :
    (blockList.flatMap blockReads).length = describedBlocks blockList := by
  rw [List.length_flatMap, describedBlocks]
  congr 1
  apply List.map_congr_left
  intro block _
  rcases hOffset : block.offset with _ | ⟨offset, _ | ⟨offset', rest⟩⟩
  all_goals simp [blockReads, hOffset, length_singleReads]

theorem length_listedBlocks (blocks : List Nat → List Nat → SortedEntries) (snippet : Snippet) :
    (listedBlocks blocks snippet).length = describedBlocks snippet.blockInfo.blockList := by
  rw [listedBlocks, List.length_map, length_blockReads]

section Block
variable (snippet : Snippet) (block : SortedEntries)

def visible : List Entry := seek (generateSeekKey snippet.schemaInfo.tableIndexNumber) block

def blockRows : List Bytes :=
  (block.entries.filter fun e => e.tableIndexNumber = snippet.schemaInfo.tableIndexNumber).filterMap
    (scanRow snippet.schemaInfo)

/-- A row of another table stands behind the rows of the snippet. -/
def Boundary : Prop := ∃ e ∈ visible snippet block, e.tableIndexNumber ≠ snippet.schemaInfo.tableIndexNumber

instance : Decidable (Boundary snippet block) :=
  inferInstanceAs (Decidable (∃ e ∈ visible snippet block, _))

def Convertible : Prop :=
  ∀ e ∈ block.entries, e.tableIndexNumber = snippet.schemaInfo.tableIndexNumber →
    (scanRow snippet.schemaInfo e).isSome

instance : Decidable (Convertible snippet block) := inferInstanceAs (Decidable (∀ e ∈ block.entries, _ → _))

end Block

def IntNumber (snippet : Snippet) : Prop :=
  -2 ^ 31 ≤ snippet.schemaInfo.tableIndexNumber ∧ snippet.schemaInfo.tableIndexNumber < 2 ^ 31

theorem filter_eq_takeWhile_of_le {snippet : Snippet} (hInt : IntNumber snippet) {e : Entry} {entries : List Entry}
    (hSorted : (e :: entries).Pairwise fun a b => a.key < b.key)
    (hLe : snippet.schemaInfo.tableIndexNumber % 2 ^ 32 ≤ beNat (e.key.take 4)) :
    ((e :: entries).filter fun e => e.tableIndexNumber = snippet.schemaInfo.tableIndexNumber) =
      (e :: entries).takeWhile fun e => e.tableIndexNumber = snippet.schemaInfo.tableIndexNumber := by
  have hIndex := fun e => tableIndexNumber_eq_iff e hInt.1 hInt.2
  induction entries generalizing e with
  | nil => by_cases h : e.tableIndexNumber = snippet.schemaInfo.tableIndexNumber <;> simp [h]
  | cons x entries ih =>
    obtain ⟨hFirst, hSorted⟩ := List.pairwise_cons.mp hSorted
    have hMono := beNat_take_mono (hFirst x List.mem_cons_self)
    by_cases h : e.tableIndexNumber = snippet.schemaInfo.tableIndexNumber
    · rw [List.filter_cons_of_pos (by simpa using h), List.takeWhile_cons_of_pos (by simpa using h),
        ih hSorted (by omega)]
    · rw [List.takeWhile_cons_of_neg (by simpa using h), List.filter_eq_nil_iff]
      intro y hy
      rw [decide_eq_true_eq, hIndex]
      rw [hIndex] at h
      rcases List.mem_cons.mp hy with rfl | hy
      · exact h
      · have := beNat_take_mono (hFirst y hy)
        omega

/-- In key order the rows of the table are the front of what the iterator shows. -/
theorem filter_eq_takeWhile {snippet : Snippet} (hInt : IntNumber snippet) {entries : List Entry}
    (hSorted : entries.Pairwise fun a b => a.key < b.key) :
    (entries.filter fun e => e.tableIndexNumber = snippet.schemaInfo.tableIndexNumber) =
      (entries.dropWhile fun e => decide (e.key < generateSeekKey snippet.schemaInfo.tableIndexNumber)).takeWhile
        fun e => e.tableIndexNumber = snippet.schemaInfo.tableIndexNumber := by
  induction entries with
  | nil => rfl
  | cons e entries ih =>
    have hKey := key_lt_seekKey_iff e snippet.schemaInfo.tableIndexNumber
    by_cases hBelow : e.key < generateSeekKey snippet.schemaInfo.tableIndexNumber
    · have hOther : e.tableIndexNumber ≠ snippet.schemaInfo.tableIndexNumber := by
        rw [ne_eq, tableIndexNumber_eq_iff e hInt.1 hInt.2]
        have := hKey.mp hBelow
        omega
      rw [List.filter_cons_of_neg (by simpa using hOther), List.dropWhile_cons_of_pos (by simpa using hBelow),
        ih (List.pairwise_cons.mp hSorted).2]
    · rw [List.dropWhile_cons_of_neg (by simpa using hBelow)]
      exact filter_eq_takeWhile_of_le hInt hSorted (by rw [hKey] at hBelow; omega)

def appendRows (data : Data) (rows : List Bytes) : Data := rows.foldl appendScannedRow data

section Copy
variable {data data' : Data} {row : Bytes} {rows : List Bytes}

/-- The rows can be copied one behind the other. -/
def Room (data : Data) (rows : List Bytes) : Prop := rows ≠ [] → data.dataLength + rows.flatten.length ≤ bufferSize

instance (data : Data) (rows : List Bytes) : Decidable (Room data rows) := inferInstanceAs (Decidable (_ ≠ _ → _))

theorem room_nil (data : Data) : Room data [] := fun h => absurd rfl h

theorem room_iff (h : data.dataLength ≤ bufferSize) :
    Room data rows ↔ data.dataLength + rows.flatten.length ≤ bufferSize := by
  constructor
  · intro hRoom
    by_cases hNil : rows = []
    · rw [hNil]
      exact h
    · exact hRoom hNil
  · exact fun hFit _ => hFit

theorem room_cons :
    Room data (row :: rows) ↔ data.dataLength + row.length ≤ bufferSize ∧ Room (appendScannedRow data row) rows := by
  have hLength : (appendScannedRow data row).dataLength = data.dataLength + row.length := rfl
  rw [Room, Room, hLength, List.flatten_cons, List.length_append, ← Nat.add_assoc]
  constructor
  · intro h
    have hAll := h (List.cons_ne_nil row rows)
    exact ⟨(Nat.le_add_right _ _).trans hAll, fun _ => hAll⟩
  · rintro ⟨hRow, hRows⟩ -
    cases rows with
    | nil => exact hRow
    | cons row' rows => exact hRows (List.cons_ne_nil row' rows)

theorem copyRow_eq_some_iff :
    copyRow data row = some data' ↔ data.dataLength + row.length ≤ bufferSize ∧ data' = appendScannedRow data row := by
  rw [copyRow, Option.ite_none_right_eq_some, Option.some_inj, eq_comm (a := data')]

end Copy

section Mapped
variable {α β : Type} {f : α → Option β} {l : List α}

theorem mapM_eq_some_filterMap (h : ∀ a ∈ l, (f a).isSome) : l.mapM f = some (l.filterMap f) := by
  induction l with
  | nil => rfl
  | cons a l ih =>
    obtain ⟨hFirst, hRest⟩ := List.forall_mem_cons.mp h
    obtain ⟨b, hb⟩ := Option.isSome_iff_exists.mp hFirst
    rw [List.mapM_cons, hb, ih hRest, List.filterMap_cons_some hb]
    rfl

theorem isSome_of_mapM (h : (l.mapM f).isSome) : ∀ a ∈ l, (f a).isSome := by
  induction l with
  | nil => simp
  | cons a l ih =>
    rw [List.mapM_cons] at h
    obtain ⟨result, hResult⟩ := Option.isSome_iff_exists.mp h
    obtain ⟨b, hb, hRest⟩ := Option.bind_eq_some_iff.mp hResult
    obtain ⟨bs, hbs, -⟩ := Option.bind_eq_some_iff.mp hRest
    exact List.forall_mem_cons.mpr ⟨Option.isSome_of_eq_some hb, ih (Option.isSome_of_eq_some hbs)⟩

end Mapped

section Loop
variable (snippet : Snippet)

/-- The rows in front of the first key of another table. -/
def ownRows (es : List Entry) : Option (List Bytes) :=
  (es.takeWhile fun e => e.tableIndexNumber = snippet.schemaInfo.tableIndexNumber).mapM (scanRow snippet.schemaInfo)

def Foreign (es : List Entry) : Prop := ∃ e ∈ es, e.tableIndexNumber ≠ snippet.schemaInfo.tableIndexNumber

instance (es : List Entry) : Decidable (Foreign snippet es) := inferInstanceAs (Decidable (∃ e ∈ es, _))

/-- The loop of the block scans; `boundary` is what becomes of the state at a key of another table. -/
def scanLoop (boundary : ScanState → ScanState) : List Entry → ScanState → Option (Bool × ScanState)
  | [], s => some (false, s)
  | e :: es, s =>
    if e.tableIndexNumber ≠ snippet.schemaInfo.tableIndexNumber then some (true, boundary s)
    else do
      let row ← scanRow snippet.schemaInfo e
      let data ← copyRow s.data row
      scanLoop boundary es { s with data := data }

theorem foreign_cons_of_own {e : Entry} {es : List Entry}
    (hOwn : e.tableIndexNumber = snippet.schemaInfo.tableIndexNumber) :
    Foreign snippet (e :: es) ↔ Foreign snippet es := by
  rw [Foreign, Foreign, List.exists_mem_cons_iff]
  exact or_iff_right (not_not.mpr hOwn)

theorem ownRows_cons_of_own {e : Entry} {es : List Entry} {rows : List Bytes}
    (hOwn : e.tableIndexNumber = snippet.schemaInfo.tableIndexNumber) :
    ownRows snippet (e :: es) = some rows ↔
      ∃ row, scanRow snippet.schemaInfo e = some row ∧ ∃ rest, ownRows snippet es = some rest ∧ rows = row :: rest := by
  rw [ownRows, List.takeWhile_cons_of_pos (by simpa using hOwn), List.mapM_cons, ← ownRows]
  simp only [bind, pure, Option.bind_eq_some_iff, Option.some_inj, eq_comm (a := rows)]

/-- What the loop does where it comes to its end: the rows of the table are there, and there is room for them. -/
theorem scanLoop_eq_some_iff (boundary : ScanState → ScanState) {es : List Entry} {s : ScanState}
    {result : Bool × ScanState} :
    scanLoop snippet boundary es s = some result ↔
      ∃ rows, ownRows snippet es = some rows ∧ Room s.data rows ∧
        result = if Foreign snippet es then (true, boundary { s with data := appendRows s.data rows })
          else (false, { s with data := appendRows s.data rows }) := by
  induction es generalizing s with
  | nil =>
    constructor
    · intro h
      exact ⟨[], rfl, room_nil _, (Option.some_inj.mp h).symm⟩
    · rintro ⟨rows, hRows, -, rfl⟩
      obtain rfl := Option.some_inj.mp hRows
      rfl
  | cons e es ih =>
    rw [scanLoop]
    by_cases hOwn : e.tableIndexNumber = snippet.schemaInfo.tableIndexNumber
    · rw [if_neg (not_not.mpr hOwn)]
      simp only [foreign_cons_of_own snippet hOwn, ownRows_cons_of_own snippet hOwn, Option.bind_eq_bind,
        Option.bind_eq_some_iff, copyRow_eq_some_iff, ih]
      constructor
      · rintro ⟨row, hRow, data, ⟨hFirst, rfl⟩, rows, hRows, hRoom, rfl⟩
        exact ⟨row :: rows, ⟨row, hRow, rows, hRows, rfl⟩, room_cons.mpr ⟨hFirst, hRoom⟩, rfl⟩
      · rintro ⟨_, ⟨row, hRow, rows, hRows, rfl⟩, hRoom, rfl⟩
        obtain ⟨hFirst, hRest⟩ := room_cons.mp hRoom
        exact ⟨row, hRow, _, ⟨hFirst, rfl⟩, rows, hRows, hRest, rfl⟩
    · have hNone : ownRows snippet (e :: es) = some [] := by
        rw [ownRows, List.takeWhile_cons_of_neg (by simpa using hOwn)]
        rfl
      have hForeign : Foreign snippet (e :: es) := ⟨e, List.mem_cons_self, hOwn⟩
      simp only [if_pos hOwn, hNone, if_pos hForeign, Option.some_inj]
      constructor
      · rintro rfl
        exact ⟨[], rfl, room_nil _, rfl⟩
      · rintro ⟨rows, rfl, -, rfl⟩
        rfl

def scanBlock (boundary : ScanState → ScanState) (es : List Entry) (s : ScanState) : Option ScanState := do
  let (returned, s) ← scanLoop snippet boundary es s
  pure (if returned then s else countBlock snippet s)

/-- One call: the rows of the table are appended, and a boundary decides how the block is counted. -/
theorem scanBlock_eq_some_iff (boundary : ScanState → ScanState) {es : List Entry} {s s' : ScanState} :
    scanBlock snippet boundary es s = some s' ↔
      ∃ rows, ownRows snippet es = some rows ∧ Room s.data rows ∧
        s' = if Foreign snippet es then boundary { s with data := appendRows s.data rows }
          else countBlock snippet { s with data := appendRows s.data rows } := by
  rw [scanBlock, Option.bind_eq_bind, Option.bind_eq_some_iff]
  simp only [scanLoop_eq_some_iff]
  constructor
  · rintro ⟨_, ⟨rows, hRows, hRoom, rfl⟩, hEnd⟩
    refine ⟨rows, hRows, hRoom, (Option.some_inj.mp hEnd).symm.trans ?_⟩
    split
    · rfl
    · rfl
  · rintro ⟨rows, hRows, hRoom, rfl⟩
    refine ⟨_, ⟨rows, hRows, hRoom, rfl⟩, ?_⟩
    split
    · rfl
    · rfl

def dataBoundary (s : ScanState) : ScanState :=
  { data := Data.clear, leftBlockCount := 0, enqueued := s.enqueued ++ [flushBatch snippet s.data s.leftBlockCount] }

theorem blockLoop_eq_scanLoop (es : List Entry) (s : ScanState) :
    blockLoop snippet es s = scanLoop snippet (dataBoundary snippet) es s := by
  induction es generalizing s with
  | nil => rfl
  | cons e es ih => simp only [blockLoop, scanLoop, ih, dataBoundary]

theorem readDataBlock_eq_scanBlock (block : SortedEntries) (s : ScanState) :
    readDataBlock snippet block s = scanBlock snippet (dataBoundary snippet) (visible snippet block) s := by
  rw [readDataBlock, scanBlock, blockLoop_eq_scanLoop, visible]

end Loop

def blockStep (snippet : Snippet) (s : ScanState) (block : SortedEntries) : ScanState :=
  let data := appendRows s.data (blockRows snippet block)
  if Boundary snippet block then
    { data := Data.clear, leftBlockCount := 0,
      enqueued := s.enqueued ++ [flushBatch snippet data s.leftBlockCount] }
  else countBlock snippet { s with data := data }

section Step
variable {snippet : Snippet}

theorem mem_visible {block : SortedEntries} {e : Entry} (h : e ∈ visible snippet block) : e ∈ block.entries :=
  (List.dropWhile_sublist _).mem h

theorem blockRows_eq_visible (hInt : IntNumber snippet) (block : SortedEntries) :
    blockRows snippet block = ((visible snippet block).takeWhile fun e =>
      e.tableIndexNumber = snippet.schemaInfo.tableIndexNumber).filterMap (scanRow snippet.schemaInfo) := by
  rw [blockRows, filter_eq_takeWhile hInt block.sorted]
  rfl

theorem ownRows_visible (hInt : IntNumber snippet) {block : SortedEntries} (hConvert : Convertible snippet block) :
    ownRows snippet (visible snippet block) = some (blockRows snippet block) := by
  rw [ownRows, blockRows_eq_visible hInt]
  refine mapM_eq_some_filterMap fun e he => ?_
  rw [visible, seek, ← filter_eq_takeWhile hInt block.sorted] at he
  obtain ⟨hMem, hOwn⟩ := List.mem_filter.mp he
  exact hConvert e hMem (of_decide_eq_true hOwn)

theorem readDataBlock_eq_some_iff (hInt : IntNumber snippet) {block : SortedEntries}
    (hConvert : Convertible snippet block) {s s' : ScanState} :
    readDataBlock snippet block s = some s' ↔
      Room s.data (blockRows snippet block) ∧ s' = blockStep snippet s block := by
  rw [readDataBlock_eq_scanBlock, scanBlock_eq_some_iff, ownRows_visible hInt hConvert]
  constructor
  · rintro ⟨rows, hRows, hRoom, rfl⟩
    obtain rfl := Option.some_inj.mp hRows
    exact ⟨hRoom, rfl⟩
  · rintro ⟨hRoom, rfl⟩
    exact ⟨_, rfl, hRoom, rfl⟩

/-- A run that comes to its end takes the steps of `blockStep`. -/
theorem eq_foldl_blockStep (hInt : IntNumber snippet) {blocks : List SortedEntries}
    (hConvert : ∀ block ∈ blocks, Convertible snippet block) {s s' : ScanState}
    (h : blocks.foldlM (fun s block => readDataBlock snippet block s) s = some s') :
    s' = blocks.foldl (blockStep snippet) s := by
  induction blocks generalizing s with
  | nil => exact (Option.some_inj.mp h).symm
  | cons block blocks ih =>
    obtain ⟨hBlock, hRest⟩ := List.forall_mem_cons.mp hConvert
    obtain ⟨s₁, hFirst, hRun⟩ := Option.bind_eq_some_iff.mp h
    obtain ⟨-, rfl⟩ := (readDataBlock_eq_some_iff hInt hBlock).mp hFirst
    exact ih hRest hRun

theorem visible_eq_nil_iff (hInt : IntNumber snippet) {block : SortedEntries} (hConvert : Convertible snippet block) :
    visible snippet block = [] ↔ ¬ Boundary snippet block ∧ blockRows snippet block = [] := by
  have hRows := blockRows_eq_visible hInt block
  constructor
  · intro h
    rw [hRows, Boundary, h]
    exact ⟨by simp, rfl⟩
  · rintro ⟨hBoundary, hNil⟩
    by_contra hne
    obtain ⟨e, es, hVisible⟩ := List.exists_cons_of_ne_nil hne
    have hMem : e ∈ visible snippet block := hVisible ▸ List.mem_cons_self
    have hIndex : e.tableIndexNumber = snippet.schemaInfo.tableIndexNumber := by
      by_contra hOther
      exact hBoundary ⟨e, hMem, hOther⟩
    obtain ⟨row, hRow⟩ := Option.isSome_iff_exists.mp (hConvert e (mem_visible hMem) hIndex)
    rw [hRows, hVisible, List.takeWhile_cons_of_pos (by simpa using hIndex), List.filterMap_cons_some hRow] at hNil
    cases hNil

def openBatch (rows : List Bytes) (c : Int) : Data := { batchOf rows with currentBlockCount := c }

theorem appendRows_openBatch (rows more : List Bytes) (c : Int) :
    appendRows (openBatch rows c) more = openBatch (rows ++ more) c := by
  induction more generalizing rows with
  | nil => rw [List.append_nil]; rfl
  | cons row more ih =>
    have hRow : openBatch (rows ++ [row]) c = appendScannedRow (openBatch rows c) row := by
      rw [openBatch, batchOf_append]
      rfl
    rw [List.append_cons, ← ih, hRow]
    rfl

end Step

def blocksOf (enqueued : List Enqueued) : Int := (enqueued.map fun o => o.result.data.currentBlockCount).sum

def rowsOf (enqueued : List Enqueued) : List Bytes := enqueued.flatMap fun o => o.result.data.rows

/-- The results account for `total` blocks, each for at least one, and hold the rows once. -/
structure Accounted (total : Int) (rows : List Bytes) (enqueued : List Enqueued) : Prop where
  positive : ∀ o ∈ enqueued, 0 < o.result.data.currentBlockCount
  blocks : blocksOf enqueued = total
  rows : (rowsOf enqueued).Perm rows

theorem blocksOf_append (enqueued : List Enqueued) (o : Enqueued) :
    blocksOf (enqueued ++ [o]) = blocksOf enqueued + o.result.data.currentBlockCount := by
  simp [blocksOf]

theorem rowsOf_append (enqueued : List Enqueued) (o : Enqueued) :
    rowsOf (enqueued ++ [o]) = rowsOf enqueued ++ o.result.data.rows := by
  simp [rowsOf]

theorem flushBatch_openBatch (snippet : Snippet) (rows : List Bytes) (c blocks : Int) :
    (flushBatch snippet (openBatch rows c) blocks).result.data.currentBlockCount = c + blocks ∧
      (flushBatch snippet (openBatch rows c) blocks).result.data.rows = rows :=
  have h := flushBatch_carries snippet rows c blocks
  ⟨h.current, h.data_sealed.rows_eq⟩

theorem countBlock_open (snippet : Snippet) {rows : List Bytes} {c left : Int} {enqueued : List Enqueued}
    (h : ¬ (c + 1 = numOfBlocks ∨ left - 1 = 0)) :
    countBlock snippet ⟨openBatch rows c, left, enqueued⟩ = ⟨openBatch rows (c + 1), left - 1, enqueued⟩ :=
  if_neg h

theorem countBlock_flush (snippet : Snippet) {rows : List Bytes} {c left : Int} {enqueued : List Enqueued}
    (h : c + 1 = numOfBlocks ∨ left - 1 = 0) :
    countBlock snippet ⟨openBatch rows c, left, enqueued⟩ =
      ⟨Data.clear, left - 1, enqueued ++ [flushBatch snippet (openBatch rows c) 1]⟩ :=
  if_pos h

section Phases
variable {snippet : Snippet} {total : Int}

/-- Before the first boundary: `c` of the blocks and `rows` of the rows of `done` are still in the open
batch. -/
structure Counting (snippet : Snippet) (total : Int) (done : List SortedEntries) (rows : List Bytes) (c : Int)
    (s : ScanState) : Prop where
  data : s.data = openBatch rows c
  c_nonneg : 0 ≤ c
  c_lt : c < numOfBlocks
  left : s.leftBlockCount = total - done.length
  positive : ∀ o ∈ s.enqueued, 0 < o.result.data.currentBlockCount
  blocks : blocksOf s.enqueued + c = done.length
  rowsEq : rowsOf s.enqueued ++ rows = done.flatMap (blockRows snippet)
  finished : s.leftBlockCount = 0 → rows = [] ∧ c = 0

/-- After a boundary: the results are complete, and the blocks of `late` are only counted. -/
structure Idle (snippet : Snippet) (total : Int) (done late : List SortedEntries) (s : ScanState) : Prop where
  data : ∃ rows, s.data = openBatch rows late.length
  left : s.leftBlockCount = -late.length
  positive : ∀ o ∈ s.enqueued, 0 < o.result.data.currentBlockCount
  blocks : blocksOf s.enqueued = total
  rowsEq : rowsOf s.enqueued = done.flatMap (blockRows snippet)

/-- A result without a block, or too many blocks: no later result can repair this. -/
def Broken (total : Int) (enqueued : List Enqueued) : Prop :=
  (∃ o ∈ enqueued, o.result.data.currentBlockCount ≤ 0) ∨ total < blocksOf enqueued

theorem counting_step {done : List SortedEntries} {rows : List Bytes} {c : Int} {s : ScanState}
    {block : SortedEntries} (h : Counting snippet total done rows c s) (hBlock : ¬ Boundary snippet block)
    (hTotal : done.length < total) :
    ∃ rows' c', Counting snippet total (done ++ [block]) rows' c' (blockStep snippet s block) := by
  have hFlush := flushBatch_openBatch snippet (rows ++ blockRows snippet block) c 1
  have hc := h.c_lt
  have hLeft := h.left
  have hNonneg := h.c_nonneg
  rw [blockStep, if_neg hBlock, h.data, appendRows_openBatch]
  by_cases hClose : c + 1 = numOfBlocks ∨ s.leftBlockCount - 1 = 0
  · rw [countBlock_flush snippet hClose]
    refine ⟨[], 0, rfl, le_rfl, by decide, ?_, ?_, ?_, ?_, fun _ => ⟨rfl, rfl⟩⟩
    · simp only [List.length_append, List.length_singleton]
      omega
    · exact List.forall_mem_append.mpr ⟨h.positive, List.forall_mem_singleton.mpr (by rw [hFlush.1]; omega)⟩
    · rw [blocksOf_append, hFlush.1, List.length_append, ← add_assoc, h.blocks]
      simp
    · rw [rowsOf_append, hFlush.2, ← List.append_assoc, h.rowsEq]
      simp
  · rw [countBlock_open snippet hClose]
    rw [not_or] at hClose
    refine ⟨rows ++ blockRows snippet block, c + 1, rfl, by omega, by omega, ?_, h.positive, ?_, ?_, ?_⟩
    · simp only [List.length_append, List.length_singleton]
      omega
    · rw [← add_assoc, h.blocks, List.length_append]
      simp
    · rw [← List.append_assoc, h.rowsEq]
      simp
    · exact fun hZero => absurd hZero hClose.2

theorem idle_of_boundary {done : List SortedEntries} {rows : List Bytes} {c : Int} {s : ScanState}
    {block : SortedEntries} (h : Counting snippet total done rows c s) (hBlock : Boundary snippet block)
    (hTotal : done.length < total) :
    Idle snippet total (done ++ [block]) [] (blockStep snippet s block) := by
  have hFlush := flushBatch_openBatch snippet (rows ++ blockRows snippet block) c s.leftBlockCount
  have hLeft := h.left
  have hNonneg := h.c_nonneg
  have hBlocks := h.blocks
  rw [blockStep, if_pos hBlock, h.data, appendRows_openBatch]
  refine ⟨⟨[], rfl⟩, rfl, ?_, ?_, ?_⟩
  · exact List.forall_mem_append.mpr ⟨h.positive, List.forall_mem_singleton.mpr (by rw [hFlush.1]; omega)⟩
  · rw [blocksOf_append, hFlush.1]
    omega
  · rw [rowsOf_append, hFlush.2, ← List.append_assoc, h.rowsEq]
    simp

theorem idle_step {done late : List SortedEntries} {s : ScanState} {block : SortedEntries}
    (h : Idle snippet total done late s) (hBlock : ¬ Boundary snippet block) (hFew : late.length + 1 < numOfBlocks) :
    Idle snippet total done (late ++ [block]) (blockStep snippet s block) := by
  obtain ⟨rows, hData⟩ := h.data
  have hLeft := h.left
  have hOpen : ¬ ((late.length : Int) + 1 = numOfBlocks ∨ s.leftBlockCount - 1 = 0) := by omega
  rw [blockStep, if_neg hBlock, hData, appendRows_openBatch, countBlock_open snippet hOpen]
  refine ⟨⟨rows ++ blockRows snippet block, ?_⟩, ?_, h.positive, h.blocks, h.rowsEq⟩
  · rw [List.length_append]
    rfl
  · simp only [List.length_append, List.length_singleton]
    omega

theorem idle_broken {done late : List SortedEntries} {s : ScanState} {block : SortedEntries}
    (h : Idle snippet total done late s) (hBlock : Boundary snippet block ∨ late.length + 1 = numOfBlocks) :
    Broken total (blockStep snippet s block).enqueued := by
  obtain ⟨rows, hData⟩ := h.data
  have hLeft := h.left
  rw [blockStep, hData, appendRows_openBatch]
  split
  · have hFlush := flushBatch_openBatch snippet (rows ++ blockRows snippet block) late.length s.leftBlockCount
    exact Or.inl ⟨_, List.mem_append_right _ List.mem_cons_self, by rw [hFlush.1]; omega⟩
  · rename_i hNone
    have hFull := hBlock.resolve_left hNone
    have hFlush := flushBatch_openBatch snippet (rows ++ blockRows snippet block) late.length 1
    rw [countBlock_flush snippet (Or.inl (by omega))]
    right
    rw [blocksOf_append, hFlush.1, h.blocks]
    omega

theorem Broken.append {enqueued : List Enqueued} (h : Broken total enqueued) (o : Enqueued) :
    Broken total (enqueued ++ [o]) := by
  rcases h with ⟨x, hx, hLe⟩ | hMore
  · exact Or.inl ⟨x, List.mem_append_left _ hx, hLe⟩
  · by_cases ho : o.result.data.currentBlockCount ≤ 0
    · exact Or.inl ⟨o, List.mem_append_right _ List.mem_cons_self, ho⟩
    · exact Or.inr (by rw [blocksOf_append]; omega)

theorem broken_step {s : ScanState} (h : Broken total s.enqueued) (block : SortedEntries) :
    Broken total (blockStep snippet s block).enqueued := by
  rw [blockStep]
  split
  · exact h.append _
  · rw [countBlock]
    split
    · exact h.append _
    · exact h

theorem broken_run {s : ScanState} (h : Broken total s.enqueued) (blocks : List SortedEntries) :
    Broken total (blocks.foldl (blockStep snippet) s).enqueued := by
  induction blocks generalizing s with
  | nil => exact h
  | cons block blocks ih => exact ih (broken_step h block)

theorem idle_run {done late : List SortedEntries} {s : ScanState} (h : Idle snippet total done late s)
    {after : List SortedEntries} (hBlocks : ∀ block ∈ after, ¬ Boundary snippet block)
    (hFew : late.length + after.length < numOfBlocks) :
    Idle snippet total done (late ++ after) (after.foldl (blockStep snippet) s) := by
  induction after generalizing late s with
  | nil => rwa [List.append_nil]
  | cons block after ih =>
    rw [List.length_cons] at hFew
    rw [List.append_cons]
    refine ih (idle_step h (hBlocks block List.mem_cons_self) (by omega))
      (fun b hb => hBlocks b (List.mem_cons_of_mem _ hb)) ?_
    rw [List.length_append, List.length_singleton]
    omega

theorem idle_run_broken {done late : List SortedEntries} {s : ScanState} (h : Idle snippet total done late s)
    (after : List SortedEntries) (hLate : late.length < numOfBlocks)
    (hAfter : (∃ block ∈ after, Boundary snippet block) ∨ numOfBlocks ≤ late.length + after.length) :
    Broken total (after.foldl (blockStep snippet) s).enqueued := by
  induction after generalizing late s with
  | nil =>
    rcases hAfter with ⟨block, hBlock, -⟩ | hMany
    · cases hBlock
    · rw [List.length_nil] at hMany
      omega
  | cons block after ih =>
    rw [List.foldl_cons]
    by_cases hStop : Boundary snippet block ∨ late.length + 1 = numOfBlocks
    · exact broken_run (idle_broken h hStop) after
    · rw [not_or] at hStop
      refine ih (idle_step h hStop.1 (by omega)) (by simp only [List.length_append, List.length_singleton]; omega) ?_
      rcases hAfter with ⟨x, hx, hBoundary⟩ | hMany
      · rcases List.mem_cons.mp hx with rfl | hx
        · exact absurd hBoundary hStop.1
        · exact Or.inl ⟨x, hx, hBoundary⟩
      · right
        simp only [List.length_append, List.length_cons, List.length_nil] at hMany ⊢
        omega

theorem Broken.not_accounted {enqueued : List Enqueued} (h : Broken total enqueued) (rows : List Bytes) :
    ¬ Accounted total rows enqueued := by
  intro hAccounted
  rcases h with ⟨o, ho, hLe⟩ | hMore
  · have := hAccounted.positive o ho
    omega
  · have := hAccounted.blocks
    omega

/-- The rows of the late blocks stay in the batch that is never enqueued. -/
theorem Idle.accounted_iff {done late : List SortedEntries} {s : ScanState} (h : Idle snippet total done late s) :
    Accounted total ((done ++ late).flatMap (blockRows snippet)) s.enqueued ↔
      ∀ block ∈ late, blockRows snippet block = [] := by
  rw [List.flatMap_append]
  constructor
  · intro hAccounted
    have hLength := hAccounted.rows.length_eq
    rw [h.rowsEq, List.length_append] at hLength
    exact List.flatMap_eq_nil_iff.mp (List.length_eq_zero_iff.mp (by omega))
  · intro hNil
    refine ⟨h.positive, h.blocks, ?_⟩
    rw [h.rowsEq, List.flatMap_eq_nil_iff.mpr hNil, List.append_nil]

end Phases

/-- Behind a block with a boundary come fewer than `NUM_OF_BLOCKS` blocks, and all their keys lie below
the table. -/
def BoundaryAtEnd (snippet : Snippet) : List SortedEntries → Prop
  | [] => True
  | block :: blocks =>
    (Boundary snippet block → blocks.length < numOfBlocks ∧ ∀ later ∈ blocks, visible snippet later = []) ∧
      BoundaryAtEnd snippet blocks

theorem boundaryAtEnd_of_not_boundary {snippet : Snippet} {blocks : List SortedEntries}
    (h : ∀ block ∈ blocks, ¬ Boundary snippet block) : BoundaryAtEnd snippet blocks := by
  induction blocks with
  | nil => trivial
  | cons block blocks ih =>
    exact ⟨fun hBlock => absurd hBlock (h block List.mem_cons_self),
      ih fun b hb => h b (List.mem_cons_of_mem _ hb)⟩

theorem accounted_run {snippet : Snippet} {total : Int} (hInt : IntNumber snippet)
    {rest : List SortedEntries} (hConvert : ∀ block ∈ rest, Convertible snippet block)
    {done : List SortedEntries} {rows : List Bytes} {c : Int} {s : ScanState}
    (h : Counting snippet total done rows c s) (hTotal : (done.length + rest.length : Nat) = total) :
    Accounted total ((done ++ rest).flatMap (blockRows snippet)) (rest.foldl (blockStep snippet) s).enqueued ↔
      BoundaryAtEnd snippet rest := by
  induction rest generalizing done rows c s with
  | nil =>
    rw [List.length_nil] at hTotal
    obtain ⟨rfl, rfl⟩ := h.finished (by rw [h.left]; omega)
    have hBlocks := h.blocks
    have hRows := h.rowsEq
    rw [List.append_nil] at hRows
    refine iff_of_true ⟨h.positive, ?_, ?_⟩ trivial
    · rw [List.foldl_nil]
      omega
    · rw [List.foldl_nil, hRows, List.append_nil]
  | cons block rest ih =>
    have hConvertRest := fun b hb => hConvert b (List.mem_cons_of_mem _ hb)
    rw [List.length_cons] at hTotal
    rw [List.append_cons, List.foldl_cons, BoundaryAtEnd]
    by_cases hBlock : Boundary snippet block
    · have hIdle := idle_of_boundary h hBlock (by omega)
      by_cases hLate : (∀ b ∈ rest, ¬ Boundary snippet b) ∧ rest.length < numOfBlocks
      · have hRun := idle_run hIdle hLate.1 (by simpa using hLate.2)
        rw [List.nil_append] at hRun
        rw [hRun.accounted_iff]
        constructor
        · intro hNil
          refine ⟨fun _ => ⟨hLate.2, fun b hb => ?_⟩, boundaryAtEnd_of_not_boundary hLate.1⟩
          exact (visible_eq_nil_iff hInt (hConvertRest b hb)).mpr ⟨hLate.1 b hb, hNil b hb⟩
        · rintro ⟨hAfter, -⟩ b hb
          exact ((visible_eq_nil_iff hInt (hConvertRest b hb)).mp ((hAfter hBlock).2 b hb)).2
      · have hBroken := idle_run_broken hIdle rest (by decide) (by
          rw [not_and_or] at hLate
          rcases hLate with hLate | hLate
          · push Not at hLate
            exact Or.inl hLate
          · exact Or.inr (by rw [List.length_nil]; omega))
        refine iff_of_false (hBroken.not_accounted _) ?_
        rintro ⟨hAfter, -⟩
        exact hLate ⟨fun b hb => ((visible_eq_nil_iff hInt (hConvertRest b hb)).mp ((hAfter hBlock).2 b hb)).1,
          (hAfter hBlock).1⟩
    · obtain ⟨rows', c', hStep⟩ := counting_step h hBlock (by omega)
      rw [ih hConvertRest hStep (by simp only [List.length_append, List.length_singleton]; omega)]
      simp [hBlock]

section Fit
variable {snippet : Snippet}

variable (snippet) in
def rowsLength (block : SortedEntries) : Nat := (blockRows snippet block).flatten.length

/-- The rows of each hundred blocks, which make one batch, fit the buffer together. -/
def BatchesFit (snippet : Snippet) (blocks : List SortedEntries) : Prop :=
  GroupsFit (rowsLength snippet) numOfBlocks bufferSize blocks

theorem dataLength_openBatch (rows : List Bytes) (c : Int) : (openBatch rows c).dataLength = rows.flatten.length :=
  (batchOf_holds rows).dataLength

theorem room_openBatch_iff {rows more : List Bytes} {c : Int} (h : rows.flatten.length ≤ bufferSize) :
    Room (openBatch rows c) more ↔ rows.flatten.length + more.flatten.length ≤ bufferSize := by
  rw [room_iff (by rwa [dataLength_openBatch]), dataLength_openBatch]

section Runs
variable {β : Type} {entries : β → List Entry} {size : β → Nat} {boundary : ScanState → ScanState}

variable (snippet) (entries) in
/-- Behind a block with a key of another table the blocks have nothing to show. -/
def BoundaryLast : List β → Prop
  | [] => True
  | b :: bs => (Foreign snippet (entries b) → ∀ later ∈ bs, entries later = []) ∧ BoundaryLast bs

/-- Blocks with nothing to show need no room. -/
theorem isSome_run_of_nil {bs : List β} (h : ∀ b ∈ bs, entries b = []) (s : ScanState) :
    (bs.foldlM (fun s b => scanBlock snippet boundary (entries b) s) s).isSome := by
  induction bs generalizing s with
  | nil => rfl
  | cons b bs ih =>
    obtain ⟨hFirst, hRest⟩ := List.forall_mem_cons.mp h
    rw [List.foldlM_cons, hFirst]
    exact ih hRest _

theorem scanBlock_openBatch_iff {es : List Entry} {rows own : List Bytes} {c left : Int} {enqueued : List Enqueued}
    {s' : ScanState} (hOwn : ownRows snippet es = some own) (hUsed : rows.flatten.length ≤ bufferSize) :
    scanBlock snippet boundary es ⟨openBatch rows c, left, enqueued⟩ = some s' ↔
      rows.flatten.length + own.flatten.length ≤ bufferSize ∧
        s' = if Foreign snippet es then boundary ⟨openBatch (rows ++ own) c, left, enqueued⟩
          else countBlock snippet ⟨openBatch (rows ++ own) c, left, enqueued⟩ := by
  rw [scanBlock_eq_some_iff, hOwn, ← room_openBatch_iff hUsed, ← appendRows_openBatch]
  constructor
  · rintro ⟨_, hSame, hRoom, rfl⟩
    obtain rfl := Option.some_inj.mp hSame
    exact ⟨hRoom, rfl⟩
  · rintro ⟨hRoom, rfl⟩
    exact ⟨own, rfl, hRoom, rfl⟩

theorem size_eq_zero_of_nil {bs : List β}
    (hSize : ∀ b ∈ bs, ∃ rows, ownRows snippet (entries b) = some rows ∧ rows.flatten.length = size b)
    (hNil : ∀ b ∈ bs, entries b = []) : ∀ b ∈ bs, size b = 0 := by
  intro b hb
  obtain ⟨rows, hOwn, hLength⟩ := hSize b hb
  rw [hNil b hb] at hOwn
  obtain rfl := Option.some_inj.mp hOwn
  exact hLength.symm

/-- The run comes to its end exactly when the rows of the open batch and of the batches behind it fit. -/
theorem isSome_run_iff {bs : List β}
    (hSize : ∀ b ∈ bs, ∃ rows, ownRows snippet (entries b) = some rows ∧ rows.flatten.length = size b)
    (hEnd : BoundaryLast snippet entries bs) (rows : List Bytes) (c : Nat) (enqueued : List Enqueued)
    (hc : c < numOfBlocks) (hUsed : rows.flatten.length ≤ bufferSize) :
    (bs.foldlM (fun s b => scanBlock snippet boundary (entries b) s) ⟨openBatch rows c, bs.length, enqueued⟩).isSome ↔
      FitsFrom size numOfBlocks bufferSize rows.flatten.length c bs := by
  induction bs generalizing rows c enqueued with
  | nil => exact iff_of_true rfl ((fitsFrom_of_weightless (by simp)).mpr hUsed)
  | cons b bs ih =>
    obtain ⟨⟨own, hOwn, hFirst⟩, hRest⟩ := List.forall_mem_cons.mp hSize
    obtain ⟨hLate, hEnd⟩ := hEnd
    rw [List.foldlM_cons]
    by_cases hFit : rows.flatten.length + size b ≤ bufferSize
    · rw [(scanBlock_openBatch_iff hOwn hUsed).mpr ⟨by rwa [hFirst], rfl⟩, Option.bind_eq_bind, Option.bind_some]
      by_cases hBoundary : Foreign snippet (entries b)
      · have hNil := hLate hBoundary
        rw [fitsFrom_cons_of_weightless hc (size_eq_zero_of_nil hRest hNil)]
        exact iff_of_true (isSome_run_of_nil hNil _) hFit
      · have hLeft : ((b :: bs).length : Int) - 1 = bs.length := by simp
        rw [if_neg hBoundary]
        by_cases hClose : (c : Int) + 1 = numOfBlocks ∨ ((b :: bs).length : Int) - 1 = 0
        · rw [countBlock_flush snippet hClose, hLeft]
          refine (ih hRest hEnd [] 0 (enqueued ++ [flushBatch snippet _ 1]) (by decide) (by decide)).trans ?_
          by_cases hFull : c + 1 = numOfBlocks
          · rw [fitsFrom_cons_close hFull, and_iff_right hFit]
            exact fitsFrom_zero
          · have hNil : bs = [] := List.length_eq_zero_iff.mp (by omega)
            have hWeightless : ∀ later ∈ bs, size later = 0 := by simp [hNil]
            rw [fitsFrom_cons_of_weightless hc hWeightless, fitsFrom_of_weightless hWeightless]
            exact iff_of_true (Nat.zero_le _) hFit
        · rw [countBlock_open snippet hClose, hLeft]
          rw [not_or] at hClose
          have hLength : (rows ++ own).flatten.length = rows.flatten.length + size b := by
            rw [List.flatten_append, List.length_append, hFirst]
          have hNext := ih hRest hEnd (rows ++ own) (c + 1) enqueued (by omega) (hLength.trans_le hFit)
          rw [hLength] at hNext
          exact hNext.trans (fitsFrom_cons_open (by omega)).symm
    · refine iff_of_false ?_ fun hFits => hFit (hFits.head_le hc)
      intro hSome
      obtain ⟨s', hRun⟩ := Option.isSome_iff_exists.mp hSome
      obtain ⟨s₁, hBlock, -⟩ := Option.bind_eq_some_iff.mp hRun
      obtain ⟨hRoom, -⟩ := (scanBlock_openBatch_iff hOwn hUsed).mp hBlock
      exact hFit (hFirst ▸ hRoom)

/-- A scan starts with an empty batch. -/
theorem isSome_scan_iff {bs : List β}
    (hSize : ∀ b ∈ bs, ∃ rows, ownRows snippet (entries b) = some rows ∧ rows.flatten.length = size b)
    (hEnd : BoundaryLast snippet entries bs) :
    (bs.foldlM (fun s b => scanBlock snippet boundary (entries b) s) ⟨Data.clear, bs.length, []⟩).isSome ↔
      GroupsFit size numOfBlocks bufferSize bs :=
  (isSome_run_iff hSize hEnd [] 0 [] (by decide) (by decide)).trans fitsFrom_zero

end Runs

theorem boundaryLast_of_boundaryAtEnd {blocks : List SortedEntries} (h : BoundaryAtEnd snippet blocks) :
    BoundaryLast snippet (visible snippet) blocks := by
  induction blocks with
  | nil => trivial
  | cons block blocks ih => exact ⟨fun hBoundary => (h.1 hBoundary).2, ih h.2⟩

theorem isSome_fullScan_iff (hInt : IntNumber snippet) {blocks : List SortedEntries}
    (hConvert : ∀ block ∈ blocks, Convertible snippet block) (hEnd : BoundaryAtEnd snippet blocks) :
    (blocks.foldlM (fun s block => readDataBlock snippet block s) ⟨Data.clear, blocks.length, []⟩).isSome ↔
      BatchesFit snippet blocks := by
  simp only [readDataBlock_eq_scanBlock]
  exact isSome_scan_iff (fun block hBlock => ⟨_, ownRows_visible hInt (hConvert block hBlock), rfl⟩)
    (boundaryLast_of_boundaryAtEnd hEnd)

end Fit

/-- The scan accounts for every block and hands on every row exactly when a row of another table shows
up in no block but the last one with anything to show, and every batch fits the buffer. -/
theorem dataBlockFullScan_accounted_iff (blocks : List Nat → List Nat → SortedEntries) (snippet : Snippet)
    (hInt : IntNumber snippet)
    (hBlocks : snippet.resultInfo.csdBlockCount = describedBlocks snippet.blockInfo.blockList)
    (hConvert : ∀ block ∈ listedBlocks blocks snippet, Convertible snippet block) :
    (∃ enqueued, dataBlockFullScan blocks snippet = some enqueued ∧
      Accounted snippet.resultInfo.csdBlockCount ((listedBlocks blocks snippet).flatMap (blockRows snippet))
        enqueued) ↔
      BoundaryAtEnd snippet (listedBlocks blocks snippet) ∧ BatchesFit snippet (listedBlocks blocks snippet) := by
  rw [← length_listedBlocks blocks] at hBlocks
  have hInit : Counting snippet snippet.resultInfo.csdBlockCount [] [] 0
      ⟨Data.clear, snippet.resultInfo.csdBlockCount, []⟩ :=
    ⟨rfl, le_rfl, by decide, by simp, by simp, by simp [blocksOf], by simp [rowsOf], fun _ => ⟨rfl, rfl⟩⟩
  have hRun := accounted_run hInt hConvert hInit (by rw [hBlocks, List.length_nil, Nat.zero_add])
  rw [List.nil_append] at hRun
  have hFits := isSome_fullScan_iff hInt hConvert
  rw [← hBlocks] at hFits
  constructor
  · rintro ⟨enqueued, hScan, hAccounted⟩
    obtain ⟨s, hScanned, hLast⟩ := Option.bind_eq_some_iff.mp hScan
    obtain rfl := Option.some_inj.mp hLast
    have hEnd := hRun.mp (eq_foldl_blockStep hInt hConvert hScanned ▸ hAccounted)
    exact ⟨hEnd, (hFits hEnd).mp (Option.isSome_of_eq_some hScanned)⟩
  · rintro ⟨hEnd, hFit⟩
    obtain ⟨s, hScanned⟩ := Option.isSome_iff_exists.mp ((hFits hEnd).mpr hFit)
    refine ⟨s.enqueued, by rw [dataBlockFullScan, hScanned]; rfl, ?_⟩
    rw [eq_foldl_blockStep hInt hConvert hScanned]
    exact hRun.mpr hEnd

def twoBlocks (first second : SortedEntries) : List Nat → List Nat → SortedEntries := fun offset _ =>
  if offset = [0] then first else second

def twoBlocksSnippet : Snippet := ordersSnippet ⟨[], [⟨[0], [4096, 4096]⟩]⟩ 2

def oneOrder (orderkey : UInt8) : SortedEntries := ⟨[ordersEntry orderkey], by simp⟩

def orderThenLineitem : SortedEntries := ⟨[ordersEntry 1, lineitemEntry 1], orders_before_lineitem⟩

theorem boundary_in_last_block_accounted :
    ∃ enqueued, dataBlockFullScan (twoBlocks (oneOrder 2) orderThenLineitem) twoBlocksSnippet = some enqueued ∧
      Accounted 2 [[2, 0, 0, 0, 7, 8], [1, 0, 0, 0, 7, 8]] enqueued := by
  refine (dataBlockFullScan_accounted_iff (twoBlocks (oneOrder 2) orderThenLineitem) twoBlocksSnippet
    ⟨by decide, by decide⟩ rfl (by decide)).mpr
      ⟨⟨fun h => ?_, fun h => ⟨by decide, fun _ hb => by cases hb⟩, trivial⟩, groupsFit_of_total (by decide)⟩
  exact absurd h (by decide)

theorem row_after_boundary_lost :
    (listedBlocks (twoBlocks orderThenLineitem (oneOrder 2)) twoBlocksSnippet).flatMap (blockRows twoBlocksSnippet) =
        [[1, 0, 0, 0, 7, 8], [2, 0, 0, 0, 7, 8]] ∧
      ¬ ∃ enqueued, dataBlockFullScan (twoBlocks orderThenLineitem (oneOrder 2)) twoBlocksSnippet = some enqueued ∧
        Accounted 2 [[1, 0, 0, 0, 7, 8], [2, 0, 0, 0, 7, 8]] enqueued := by
  refine ⟨by decide, ?_⟩
  rintro ⟨enqueued, hScan, hAccounted⟩
  have hOne : (dataBlockFullScan (twoBlocks orderThenLineitem (oneOrder 2)) twoBlocksSnippet).map rowsOf =
      some [[1, 0, 0, 0, 7, 8]] := by decide
  rw [hScan, Option.map_some, Option.some_inj] at hOne
  have hLength := hAccounted.rows.length_eq
  rw [hOne] at hLength
  cases hLength

end CsdWorker.Scan
