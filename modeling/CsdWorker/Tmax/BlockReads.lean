import CsdWorker.Tmax.BlockFile

/-! # Where the blocks of a chunk are read

The part of `Worker::tmax_working` that computes the offsets. A chunk has 64-bit members, but the number of
its blocks and the distance of a block from the start of the chunk are computed as `int`, and `lseek` takes a
signed offset and refuses a negative one.
-/

namespace CsdWorker.Tmax

open Memory Endian

set_option autoImplicit false

/-- The `struct chunk` of a request. -/
structure FileChunk where
  offset : Nat
  length : Nat
  offset_lt : offset < 2 ^ 64
  length_lt : length < 2 ^ 64

/-- Where one block is read and how many bytes. -/
structure BlockRead where
  offset : Nat
  length : Nat
  deriving DecidableEq, Repr

section Model
variable (chunk : FileChunk) (blockSize : Int)

def loopCount : Int := wrap 4 ((chunk.length / unsign 8 blockSize : Nat) : Int)

def cOffset (j : Nat) : Nat := (chunk.offset + unsign 8 (wrap 4 (blockSize * j))) % 2 ^ 64

/-- `c_offset` as the `off_t` that `lseek` gets. -/
def seekOffset (j : Nat) : Int := wrap 8 (cOffset chunk blockSize j)

/-- Where `lseek` fails there is no read. -/
def blockRead (j : Nat) : Option BlockRead :=
  if seekOffset chunk blockSize j < 0 then none
  else some ⟨(seekOffset chunk blockSize j).toNat, unsign 8 blockSize⟩

/-- The loop over the blocks of a chunk. A `block_size` of zero is divided by. -/
def blockLoop : Option (List (Option BlockRead)) :=
  if blockSize = 0 then none
  else some ((List.range (loopCount chunk blockSize).toNat).map (blockRead chunk blockSize))

def blockReads : Option (List BlockRead) := (blockLoop chunk blockSize).map List.reduceOption

/-- What the worker gets for a chunk; `file` stands for the open file. -/
def chunkOutcomes (file : BlockRead → Outcome) : Option (List Outcome) :=
  (blockLoop chunk blockSize).map (List.map fun request => request.elim .seekFailed file)

end Model

/-- A snippet from its chunks on. -/
def tmaxWorkingSnippet (fi : FilterInfo) (id blockSize bufferSize : Int) (fuel : Nat) (reused : Nat → Outcome)
    (garbage : Mem) (file : BlockRead → Outcome) (chunks : List FileChunk) :
    Option (List Call × Option (List Result)) :=
  (chunks.mapM fun chunk => chunkOutcomes chunk blockSize file).map
    (tmaxWorkingFile fi bufferSize fuel reused id garbage)

/-- The blocks lie behind each other from the start of the chunk on, as many as there is room for. -/
structure Tiles (chunk : FileChunk) (blockSize : Nat) (reads : List BlockRead) : Prop where
  length : reads.length = chunk.length / blockSize
  block : ∀ j < chunk.length / blockSize, reads[j]? = some ⟨chunk.offset + j * blockSize, blockSize⟩
  adjacent : ∀ j a b, reads[j]? = some a → reads[j + 1]? = some b → a.offset + a.length = b.offset
  inside : ∀ a ∈ reads, chunk.offset ≤ a.offset ∧ a.offset + a.length ≤ chunk.offset + chunk.length

/-- The reads tile the chunk, and none of the numbers is too large for its type. -/
structure ReadsTile (chunk : FileChunk) (blockSize : Int) : Prop where
  tiles : ∃ reads, blockReads chunk blockSize = some reads ∧ Tiles chunk blockSize.toNat reads
  loop : Fits 4 (chunk.length / blockSize.toNat : Nat)
  product : ∀ j < chunk.length / blockSize.toNat, Fits 4 (blockSize * j)

/-- The blocks of a chunk as they lie in the file. -/
def blocksOf (chunk : FileChunk) (size : Nat) : List BlockRead :=
  (List.range (chunk.length / size)).map fun j => ⟨chunk.offset + j * size, size⟩

theorem tiles_blocksOf (chunk : FileChunk) (size : Nat) :
    Tiles chunk size (blocksOf chunk size) where
  length := by rw [blocksOf, List.length_map, List.length_range]
  block j hj := by rw [blocksOf, List.getElem?_map, List.getElem?_range hj, Option.map_some]
  adjacent j a b ha hb := by
    have hj : j + 1 < chunk.length / size := by
      obtain ⟨hLt, -⟩ := List.getElem?_eq_some_iff.mp hb
      rwa [blocksOf, List.length_map, List.length_range] at hLt
    rw [blocksOf, List.getElem?_map, List.getElem?_range (Nat.lt_of_succ_lt hj), Option.map_some, Option.some_inj] at ha
    rw [blocksOf, List.getElem?_map, List.getElem?_range hj, Option.map_some, Option.some_inj] at hb
    rw [← ha, ← hb]
    change chunk.offset + j * size + size = chunk.offset + (j + 1) * size
    rw [Nat.succ_mul, Nat.add_assoc]
  inside a ha := by
    obtain ⟨j, hj, rfl⟩ := List.mem_map.mp ha
    have hLe : (j + 1) * size ≤ chunk.length / size * size := Nat.mul_le_mul_right size (List.mem_range.mp hj)
    have hDiv := Nat.div_mul_le_self chunk.length size
    rw [Nat.succ_mul] at hLe
    change chunk.offset ≤ chunk.offset + j * size ∧ chunk.offset + j * size + size ≤ _
    omega

section Reads
variable {chunk : FileChunk} {size : Nat}

theorem fits_product {j : Nat} : Fits 4 ((size : Int) * j) ↔ j * size < 2 ^ 31 := by
  rw [mul_comm, ← Nat.cast_mul, fits_natCast]
  norm_num
  omega

/-- None of the numbers of the chunk's blocks is too large for its type. -/
structure Addressable (chunk : FileChunk) (size : Nat) : Prop where
  loop : chunk.length / size < 2 ^ 31
  product : ∀ j < chunk.length / size, j * size < 2 ^ 31
  seek : ∀ j < chunk.length / size, chunk.offset + j * size < 2 ^ 63

theorem seekOffset_eq {j : Nat} (hProduct : j * size < 2 ^ 31) (hSeek : chunk.offset + j * size < 2 ^ 63) :
    seekOffset chunk size j = (chunk.offset + j * size : Nat) := by
  have hDistance : unsign 8 (wrap 4 ((size : Int) * j)) = j * size := by
    rw [wrap_of_fits (fits_product.mpr hProduct), mul_comm, ← Nat.cast_mul]
    exact unsign_of_lt (by omega)
  rw [seekOffset, cOffset, hDistance, Nat.mod_eq_of_lt (by omega)]
  exact wrap_of_fits (fits_natCast.mpr (by omega))

theorem blockLoop_eq (hPos : 0 < size) (hSize : size < 2 ^ 31) (h : Addressable chunk size) :
    blockLoop chunk size = some ((blocksOf chunk size).map some) := by
  have hUnsign : unsign 8 (size : Int) = size := unsign_of_lt (by omega)
  have hCount : (loopCount chunk size).toNat = chunk.length / size := by
    have hLoop := h.loop
    rw [loopCount, hUnsign, wrap_of_fits (fits_natCast.mpr (by omega)), Int.toNat_natCast]
  rw [blockLoop, if_neg (by omega), hCount, blocksOf, List.map_map, Option.some_inj]
  apply List.map_congr_left
  intro j hj
  rw [List.mem_range] at hj
  rw [blockRead, seekOffset_eq (h.product j hj) (h.seek j hj), hUnsign, if_neg (by omega), Int.toNat_natCast]
  rfl

theorem blockReads_eq (hPos : 0 < size) (hSize : size < 2 ^ 31) (h : Addressable chunk size) :
    blockReads chunk size = some (blocksOf chunk size) := by
  rw [blockReads, blockLoop_eq hPos hSize h, Option.map_some, List.reduceOption, List.filterMap_map]
  exact congrArg some List.filterMap_some

/-- Without large chunks a snippet is worked on block by block. -/
theorem tmaxWorkingSnippet_eq {fi : FilterInfo} {id bufferSize : Int} {fuel : Nat} {reused : Nat → Outcome}
    {garbage : Mem} {file : BlockRead → Outcome} {chunks : List FileChunk} (hPos : 0 < size) (hSize : size < 2 ^ 31)
    (hChunks : ∀ chunk ∈ chunks, Addressable chunk size) :
    tmaxWorkingSnippet fi id size bufferSize fuel reused garbage file chunks =
      some (tmaxWorkingFile fi bufferSize fuel reused id garbage
        (chunks.map fun chunk => (blocksOf chunk size).map file)) := by
  have hOutcomes : (chunks.mapM fun chunk => chunkOutcomes chunk size file) =
      some (chunks.map fun chunk => (blocksOf chunk size).map file) := by
    induction chunks with
    | nil => rfl
    | cons chunk chunks ih =>
      obtain ⟨hFirst, hRest⟩ := List.forall_mem_cons.mp hChunks
      rw [List.mapM_cons, ih hRest, chunkOutcomes, blockLoop_eq hPos hSize hFirst, Option.map_some, List.map_map]
      rfl
  rw [tmaxWorkingSnippet, hOutcomes, Option.map_some]

theorem exists_blockRead {blockSize : Int} {reads : List BlockRead} (h : blockReads chunk blockSize = some reads)
    {request : BlockRead} (hRequest : request ∈ reads) :
    ∃ j < (loopCount chunk blockSize).toNat, seekOffset chunk blockSize j = request.offset := by
  obtain ⟨loop, hLoop, rfl⟩ := Option.map_eq_some_iff.mp h
  obtain ⟨-, hBlocks⟩ := Option.ite_none_left_eq_some.mp hLoop
  obtain rfl := Option.some_inj.mp hBlocks
  obtain ⟨j, hj, hRead⟩ := List.mem_map.mp (List.reduceOption_mem_iff.mp hRequest)
  obtain ⟨hNonneg, hSome⟩ := Option.ite_none_left_eq_some.mp hRead
  obtain rfl := Option.some_inj.mp hSome
  refine ⟨j, List.mem_range.mp hj, ?_⟩
  dsimp only
  omega

theorem offset_lt_of_mem {blockSize : Int} {reads : List BlockRead} (h : blockReads chunk blockSize = some reads)
    {request : BlockRead} (hRequest : request ∈ reads) : request.offset < 2 ^ 63 := by
  obtain ⟨j, -, hOffset⟩ := exists_blockRead h hRequest
  have hFits : Fits 8 (seekOffset chunk blockSize j) := fits_wrap 8 _
  rw [hOffset, fits_natCast] at hFits
  omega

/-- The last block is the one that is the furthest from the start. -/
theorem forall_product_lt {bound : Nat} (hBound : 0 < bound) :
    (∀ j < chunk.length / size, j * size < bound) ↔ (chunk.length / size - 1) * size < bound := by
  constructor
  · intro h
    rcases Nat.eq_zero_or_pos (chunk.length / size) with hNone | hSome
    · rwa [hNone, Nat.zero_sub, Nat.zero_mul]
    · exact h _ (Nat.sub_one_lt hSome.ne')
  · intro h j hj
    exact (Nat.mul_le_mul_right size (Nat.le_sub_one_of_lt hj)).trans_lt h

theorem forall_seek_lt {bound : Nat} :
    (∀ j < chunk.length / size, chunk.offset + j * size < bound) ↔
      (0 < chunk.length / size → chunk.offset + (chunk.length / size - 1) * size < bound) := by
  constructor
  · intro h hSome
    exact h _ (Nat.sub_one_lt hSome.ne')
  · intro h j hj
    have hLe := Nat.mul_le_mul_right size (Nat.le_sub_one_of_lt hj)
    have hLast := h (Nat.zero_lt_of_lt hj)
    omega

end Reads

/-- The reads tile the chunk exactly when the number of its blocks and the distance of the last one are an
`int`, and the last one, if there is a block, starts below `2 ^ 63`. -/
theorem readsTile_iff (chunk : FileChunk) (blockSize : Int) (hPos : 0 < blockSize) (hSize : blockSize < 2 ^ 31) :
    ReadsTile chunk blockSize ↔ chunk.length / blockSize.toNat < 2 ^ 31 ∧
      (chunk.length / blockSize.toNat - 1) * blockSize.toNat < 2 ^ 31 ∧
      (0 < chunk.length / blockSize.toNat →
        chunk.offset + (chunk.length / blockSize.toNat - 1) * blockSize.toNat < 2 ^ 63) := by
  obtain ⟨size, rfl⟩ := Int.eq_ofNat_of_zero_le hPos.le
  rw [Int.toNat_natCast, ← forall_product_lt (by decide), ← forall_seek_lt]
  constructor
  · intro h
    have hLoop := fits_natCast.mp h.loop
    rw [Int.toNat_natCast] at hLoop
    obtain ⟨reads, hReads, hTiles⟩ := h.tiles
    refine ⟨by norm_num at hLoop; omega, fun j hj => fits_product.mp (h.product j hj), fun j hj => ?_⟩
    exact offset_lt_of_mem hReads (List.mem_of_getElem? (hTiles.block j hj))
  · rintro ⟨hLoop, hProduct, hSeek⟩
    refine ⟨⟨_, blockReads_eq (by omega) (by omega) ⟨hLoop, hProduct, hSeek⟩, tiles_blocksOf chunk size⟩, ?_, ?_⟩
    · exact fits_natCast.mpr (by rw [Int.toNat_natCast]; norm_num; omega)
    · exact fun j hj => fits_product.mpr (hProduct j hj)

def smallChunk : FileChunk := ⟨8192, 20000, by decide, by decide⟩

theorem smallChunk_tiled : ReadsTile smallChunk 8192 :=
  (readsTile_iff smallChunk 8192 (by decide) (by decide)).mpr (by decide)

/-- Two gigabytes and one more block. -/
def largeChunk : FileChunk := ⟨0, 2147487744, by decide, by decide⟩

/-- The last block, 524288, is sought at a negative distance from the start of the chunk, and not read. -/
theorem largeChunk_misread : ¬ReadsTile largeChunk 4096 := by
  intro h
  obtain ⟨reads, hReads, hTiles⟩ := h.tiles
  obtain ⟨j, hj, hOffset⟩ := exists_blockRead hReads (List.mem_of_getElem? (hTiles.block 524288 (by decide)))
  have hCount : (loopCount largeChunk 4096).toNat = 524289 := by decide
  change seekOffset largeChunk (4096 : Nat) j = 2147483648 at hOffset
  rcases Nat.eq_or_lt_of_le (Nat.le_of_lt_succ (hCount ▸ hj)) with rfl | hEarlier
  · exact absurd hOffset (by decide)
  · have hZero : largeChunk.offset = 0 := rfl
    rw [seekOffset_eq (by omega) (by omega)] at hOffset
    omega

end CsdWorker.Tmax
