import CsdWorker.Tmax.ChunkFrames

/-! # The results of a snippet

The chunks of all blocks of a snippet are packed into results: a result is returned when the next frame does
not fit into its buffer, and the last one when the snippet is done.
-/

namespace CsdWorker.Tmax

open Memory Packing Endian

set_option autoImplicit false

structure ChunkList.Plain (chunkList : ChunkList) : Prop where
  chained : chunkList.chainedChunk = []
  used : ∀ chunk ∈ chunkList.resChunk, chunk.used ≤ resChunkSize

section Flush
variable {chunkList : ChunkList} {bufferSize : Int}

/-- The returned results are the closed groups, and the result in work is the open one. -/
structure Holds (p : Batches Bytes) (s : Result × List Result) : Prop where
  returned : s.2.map Result.content = p.closed.map List.flatten
  current : s.1.content = p.opened.flatten

/-- The packing of the results: a frame that does not fit into the one in work is the first of the next. -/
abbrev packFrames (bufferSize : Int) (p : Batches Bytes) (frames : List Bytes) : Batches Bytes :=
  pack List.length bufferSize.toNat p frames

section Call
variable {i : Nat} {result : Result} {w : Written} {done rest : List (Chunk × UInt8)}
  (hFills : Fills bufferSize (chunkList.entries.drop i) i result.content w done rest)

include hFills

theorem content_of_fills {opened : List Bytes} (hOpened : result.content = opened.flatten) :
    Result.content { result with data := w.bigChunk, length := w.totalLen } =
      (opened ++ done.map frameOf).flatten := by
  rw [List.flatten_append, ← hOpened]
  exact hFills.bytes

theorem totalLen_of_fills {opened : List Bytes} (hOpened : result.content = opened.flatten) :
    w.totalLen = total List.length (opened ++ done.map frameOf) := by
  rw [total_length, ← content_of_fills hFills hOpened, length_resultContent]

/-- The frames that a call has written are packed behind the open ones, since they fit. -/
theorem packFrames_of_fills {p : Batches Bytes} (hOpened : result.content = p.opened.flatten)
    (hLe : w.totalLen ≤ bufferSize.toNat) :
    packFrames bufferSize p (chunkList.frames.drop i) =
      packFrames bufferSize ⟨p.closed, p.opened ++ done.map frameOf⟩ (rest.map frameOf) := by
  rw [totalLen_of_fills hFills hOpened, total_append] at hLe
  rw [ChunkList.frames, ← List.map_drop, hFills.split, packFrames, List.map_append, pack_append,
    pack_of_fits List.length bufferSize.toNat hLe]

end Call

/-- A loop that ends has packed the frames from chunk `i` on; that it ends is `flushLoop_ends`. -/
theorem flushLoop_packs (hFlushable : Flushable chunkList bufferSize) (hSmall : NoOverflow bufferSize) {fuel i : Nat}
    {p : Batches Bytes} {s s' : Result × List Result} (hHolds : Holds p s) (hle : s.1.length ≤ bufferSize.toNat)
    (h : flushLoop chunkList bufferSize fuel i s.1 s.2 = some s') :
    s'.1.length ≤ bufferSize.toNat ∧ Holds (packFrames bufferSize p (chunkList.frames.drop i)) s' := by
  induction fuel generalizing i p s with
  | zero => cases h
  | succ fuel ih =>
    obtain ⟨w, done, rest, hCall, hFills⟩ := writeChunkListToBuffer_fills
      (fun j (_ : i ≤ j) _ => chunkAt_eq_entries hFlushable.oneList j) hFlushable.sized s.1.data (hSmall.max_length hle)
    have hContent := content_of_fills hFills hHolds.current
    have hLe : w.totalLen ≤ bufferSize.toNat := by
      have hMax := hFills.le
      rw [length_read] at hMax
      omega
    rw [flushLoop_succ hCall] at h
    rw [packFrames_of_fills hFills hHolds.current hLe]
    cases hFinished : w.finished with
    | true =>
      rw [hFinished] at h
      obtain rfl := Option.some_inj.mp h
      rw [hFills.finished hFinished]
      exact ⟨hLe, hHolds.returned, hContent⟩
    | false =>
      rw [hFinished] at h
      obtain ⟨hIdx, entry, hHead, hOver⟩ := hFills.resume hFinished
      obtain ⟨entries, rfl⟩ := List.head?_eq_some_iff.mp hHead
      have hDrop : chunkList.entries.drop w.currentChunkIdx = entry :: entries := by
        rw [hIdx, ← List.drop_drop, hFills.split, List.drop_left]
      have hFits := hFlushable.fits entry (List.mem_of_mem_drop (hDrop ▸ List.mem_cons_self))
      let written : Result := { s.1 with data := w.bigChunk, length := w.totalLen }
      have hNext : Holds ⟨p.closed ++ [p.opened ++ done.map frameOf], []⟩
          (initResult written bufferSize, s.2 ++ [written]) := by
        constructor
        · simp [hHolds.returned, written, hContent]
        · rfl
      have hRest := ih hNext (Nat.zero_le _) h
      rw [ChunkList.frames, ← List.map_drop, hDrop] at hRest
      -- the next call starts in an empty buffer, where packing puts the frame that did not fit
      rw [packFrames, List.map_cons, pack_of_overflow]
      · exact hRest
      · rw [← totalLen_of_fills hFills hHolds.current]
        omega
      · rw [length_frameOf]
        omega

theorem flushLoop_holds (hFlushable : Flushable chunkList bufferSize) (hSmall : NoOverflow bufferSize) {fuel : Nat}
    (hFuel : chunkList.entries.length + 2 ≤ fuel) {p : Batches Bytes} {s : Result × List Result} (hHolds : Holds p s)
    (hle : s.1.length ≤ bufferSize.toNat) :
    ∃ s', flushLoop chunkList bufferSize fuel 0 s.1 s.2 = some s' ∧ s'.1.length ≤ bufferSize.toNat ∧
      Holds (packFrames bufferSize p chunkList.frames) s' := by
  obtain ⟨s', hEnds⟩ := flushLoop_ends hFlushable hFuel (hSmall.max_length hle) s.2
  have hPacks := flushLoop_packs hFlushable hSmall hHolds hle hEnds
  rw [List.drop_zero] at hPacks
  exact ⟨s', hEnds, hPacks⟩

end Flush

section Snippet
variable {bufferSize : Int} {fuel : Nat}

def blockFrames (block : Option ChunkList) : List Bytes := block.toList.flatMap ChunkList.frames

def snippetFrames (chunks : List (List (Option ChunkList))) : List Bytes :=
  chunks.flatMap fun blocks => blocks.flatMap blockFrames

structure Workable (bufferSize : Int) (fuel : Nat) (block : Option ChunkList) : Prop where
  flushable : ∀ chunkList ∈ block, Flushable chunkList bufferSize
  fuel_le : ∀ chunkList ∈ block, chunkList.entries.length + 2 ≤ fuel

theorem workBlock_holds (hSmall : NoOverflow bufferSize) {block : Option ChunkList}
    (hBlock : Workable bufferSize fuel block) {p : Batches Bytes} {s : Result × List Result} (hHolds : Holds p s)
    (hle : s.1.length ≤ bufferSize.toNat) :
    ∃ s', workBlock bufferSize fuel s block = some s' ∧ s'.1.length ≤ bufferSize.toNat ∧
      Holds (packFrames bufferSize p (blockFrames block)) s' := by
  cases block with
  | none => exact ⟨_, rfl, hle, hHolds.returned, hHolds.current⟩
  | some chunkList =>
    obtain ⟨s', hFlush, hle', hHolds'⟩ := flushLoop_holds (hBlock.flushable chunkList rfl) hSmall
      (hBlock.fuel_le chunkList rfl) hHolds hle
    refine ⟨s', hFlush, hle', ?_⟩
    rw [blockFrames, Option.toList_some, List.flatMap_singleton]
    exact hHolds'

theorem workBlocks_holds (hSmall : NoOverflow bufferSize) {blocks : List (Option ChunkList)}
    (hBlocks : ∀ block ∈ blocks, Workable bufferSize fuel block) {p : Batches Bytes} {s : Result × List Result}
    (hHolds : Holds p s) (hle : s.1.length ≤ bufferSize.toNat) :
    ∃ s', blocks.foldlM (workBlock bufferSize fuel) s = some s' ∧ s'.1.length ≤ bufferSize.toNat ∧
      Holds (packFrames bufferSize p (blocks.flatMap blockFrames)) s' := by
  induction blocks generalizing p s with
  | nil => exact ⟨s, rfl, hle, hHolds⟩
  | cons block blocks ih =>
    obtain ⟨hFirst, hRest⟩ := List.forall_mem_cons.mp hBlocks
    obtain ⟨t, hWork, hle', hHolds'⟩ := workBlock_holds hSmall hFirst hHolds hle
    obtain ⟨s', hFold, hle'', hHolds''⟩ := ih hRest hHolds' hle'
    refine ⟨s', ?_, hle'', ?_⟩
    · rw [List.foldlM_cons, hWork]
      exact hFold
    · rwa [List.flatMap_cons, packFrames, pack_append]

theorem workChunks_holds (hSmall : NoOverflow bufferSize) {chunks : List (List (Option ChunkList))}
    (hChunks : ∀ blocks ∈ chunks, ∀ block ∈ blocks, Workable bufferSize fuel block) {p : Batches Bytes}
    {s : Result × List Result} (hHolds : Holds p s) (hle : s.1.length ≤ bufferSize.toNat) :
    ∃ s', chunks.foldlM (workChunk bufferSize fuel) s = some s' ∧
      Holds (packFrames bufferSize p (snippetFrames chunks)) s' := by
  induction chunks generalizing p s with
  | nil => exact ⟨s, rfl, hHolds⟩
  | cons blocks chunks ih =>
    obtain ⟨hFirst, hRest⟩ := List.forall_mem_cons.mp hChunks
    obtain ⟨t, hFold, hle', hHolds'⟩ := workBlocks_holds hSmall hFirst hHolds hle
    obtain ⟨s', hFolds, hHolds''⟩ := ih (s := countChunk t) hRest ⟨hHolds'.returned, hHolds'.current⟩ hle'
    refine ⟨s', ?_, ?_⟩
    · rw [List.foldlM_cons, workChunk, hFold]
      exact hFolds
    · rwa [snippetFrames, List.flatMap_cons, packFrames, pack_append]

end Snippet

structure Framed (bufferSize : Int) (frames : List Bytes) (results : List Result) : Prop where
  length_le : ∀ result ∈ results, (result.length : Int) ≤ bufferSize
  bytes : results.flatMap Result.content = frames.flatten
  whole : ∃ groups : List (List Bytes), groups.flatten = frames ∧
    results.map Result.content = groups.map List.flatten

theorem length_frame_le {chunks : List (List (Option ChunkList))} {bufferSize : Int} {fuel : Nat}
    (hChunks : ∀ blocks ∈ chunks, ∀ block ∈ blocks, Workable bufferSize fuel block) :
    ∀ frame ∈ snippetFrames chunks, frame.length ≤ bufferSize.toNat := by
  intro bytes hBytes
  obtain ⟨blocks, hBlocks, hBytes⟩ := List.mem_flatMap.mp hBytes
  obtain ⟨block, hBlock, hBytes⟩ := List.mem_flatMap.mp hBytes
  obtain ⟨chunkList, hList, hBytes⟩ := List.mem_flatMap.mp hBytes
  obtain ⟨entry, hEntry, rfl⟩ := List.mem_map.mp hBytes
  have hFits := ((hChunks blocks hBlocks block hBlock).flushable chunkList (by simpa using hList)).fits entry hEntry
  rw [length_frameOf]
  omega

/-- Blocks that can be flushed are framed into the results, which are not longer than the buffer. -/
theorem tmaxWorking_framed_of_workable (id : Int) {bufferSize : Int} (garbage : Mem) (hSmall : NoOverflow bufferSize)
    {chunks : List (List (Option ChunkList))} {fuel : Nat}
    (hChunks : ∀ blocks ∈ chunks, ∀ block ∈ blocks, Workable bufferSize fuel block) (hPos : 0 ≤ bufferSize) :
    ∃ results, tmaxWorking id bufferSize garbage fuel chunks = some results ∧ results ≠ [] ∧
      Framed bufferSize (snippetFrames chunks) results := by
  obtain ⟨s, hFold, hHolds⟩ := workChunks_holds (p := empty) (s := (⟨id, garbage, 0, false, 0⟩, [])) hSmall hChunks
    ⟨rfl, rfl⟩ (Nat.zero_le _)
  have hContents : (s.2 ++ [s.1]).map Result.content =
      (groups (pack List.length bufferSize.toNat empty (snippetFrames chunks))).map List.flatten := by
    rw [List.map_append, hHolds.returned, List.map_singleton, hHolds.current, groups, List.map_append]
    rfl
  have hFlatten := groups_pack_flatten List.length bufferSize.toNat empty (snippetFrames chunks)
  have hFits := fits_pack List.length bufferSize.toNat (fits_empty _ _) (length_frame_le hChunks)
  refine ⟨s.2 ++ [s.1], by rw [tmaxWorking, hFold]; rfl, List.append_ne_nil_of_right_ne_nil _ (List.cons_ne_nil _ _),
    fun result hResult => ?_, ?_, _, hFlatten, hContents⟩
  · have hMem : result.content ∈ (s.2 ++ [s.1]).map Result.content := List.mem_map_of_mem hResult
    rw [hContents] at hMem
    obtain ⟨group, hGroup, hEq⟩ := List.mem_map.mp hMem
    have hLength := hFits group hGroup
    rw [total_length, hEq, length_resultContent] at hLength
    omega
  · rw [List.flatMap_def, hContents, ← List.flatten_flatten, hFlatten]
    rfl

theorem flushable_of_plain {chunkList : ChunkList} {bufferSize : Int} (hPlain : chunkList.Plain)
    (hSize : (resChunkSize + 3 : Int) ≤ bufferSize) : Flushable chunkList bufferSize := by
  have hSized : chunkList.Sized := by
    intro entry hEntry
    rw [ChunkList.entries, hPlain.chained, List.map_nil, List.append_nil] at hEntry
    obtain ⟨chunk, hChunk, rfl⟩ := List.mem_map.mp hEntry
    exact hPlain.used chunk hChunk
  refine ⟨Or.inr hPlain.chained, hSized, fun entry hEntry => ?_⟩
  have hUsed := hSized entry hEntry
  omega

def smallChunks : List (List (Option ChunkList)) :=
  [[some ⟨[⟨ofBytes [1, 65, 0], 3⟩], []⟩, none], [some ⟨[⟨ofBytes [0], 1⟩], []⟩]]

section Overrun
variable {bufferSize : Int} {fuel : Nat} {chunk : Chunk} {s : Result × List Result}

theorem writeChunkListToBuffer_single (chunk : Chunk) (data : Mem) (bufferSize : Int) (length : Nat) :
    writeChunkListToBuffer ⟨[chunk], []⟩ data bufferSize 0 length =
      writeFrom ⟨[chunk], []⟩ bufferSize 0 0 (0 + 1) length length data := rfl

theorem length_workBlock_single {s' : Result × List Result} (hUsed : chunk.used ≤ resChunkSize)
    (hRoom : wrap 4 ((s.1.length : Int) + chunk.used + 3) ≤ bufferSize)
    (hInside : (s.1.length : Int) + 3 + chunk.used ≤ bufferSize)
    (h : workBlock bufferSize fuel s (some ⟨[chunk], []⟩) = some s') : s'.1.length = s.1.length + 3 + chunk.used := by
  rw [workBlock] at h
  cases fuel with
  | zero => cases h
  | succ fuel =>
    have hCall := (writeChunkListToBuffer_single chunk s.1.data bufferSize s.1.length).trans
      (writeFrom_of_room (show chunkAt ⟨[chunk], []⟩ 0 = some (chunk, 0) from rfl) hRoom hUsed hInside)
    rw [flushLoop_succ hCall, if_pos rfl, Option.some_inj] at h
    rw [← h]

theorem workBlock_single_overrun (hRoom : wrap 4 ((s.1.length : Int) + chunk.used + 3) ≤ bufferSize)
    (hOver : bufferSize < (s.1.length : Int) + 3 + chunk.used) :
    workBlock bufferSize fuel s (some ⟨[chunk], []⟩) = none := by
  rw [workBlock]
  cases fuel with
  | zero => rfl
  | succ fuel =>
    have hCall := (writeChunkListToBuffer_single chunk s.1.data bufferSize s.1.length).trans
      (writeFrom_of_overrun (show chunkAt ⟨[chunk], []⟩ 0 = some (chunk, 0) from rfl) hRoom hOver)
    rw [flushLoop, hCall]
    rfl

/-- Once a frame would end at `2 ^ 31`, the sum that is compared with the size of the buffer is negative. -/
theorem workBlocks_overrun (hUsed : chunk.used = resChunkSize) (n : Nat)
    (hEnd : s.1.length + 65536 * (n + 1) = 2 ^ 31) :
    (List.replicate (n + 1) (some ⟨[chunk], []⟩)).foldlM (workBlock 2147483647 fuel) s = none := by
  have hFull : resChunkSize = 65533 := rfl
  induction n generalizing s with
  | zero =>
    have hNegative : wrap 4 ((s.1.length : Int) + chunk.used + 3) = -2147483648 := by
      rw [show (s.1.length : Int) + chunk.used + 3 = 2147483648 by omega]
      decide
    rw [List.replicate_one, List.foldlM_cons, workBlock_single_overrun (by rw [hNegative]; decide) (by omega)]
    rfl
  | succ n ih =>
    rw [List.replicate_succ, List.foldlM_cons]
    cases hWork : workBlock 2147483647 fuel s (some ⟨[chunk], []⟩) with
    | none => rfl
    | some s' =>
      have hSum : wrap 4 ((s.1.length : Int) + chunk.used + 3) = s.1.length + chunk.used + 3 :=
        wrap_of_fits ⟨by norm_num; omega, by norm_num; omega⟩
      have hLength := length_workBlock_single hUsed.le (by rw [hSum]; omega) (by omega) hWork
      rw [hUsed, hFull] at hLength
      have hNext : s'.1.length + 65536 * (n + 1) = 2 ^ 31 := by
        rw [hLength, ← hEnd]
        ring
      exact ih hNext

theorem tmaxWorking_eq_none {id : Int} {garbage : Mem} {blocks : List (Option ChunkList)}
    (h : blocks.foldlM (workBlock bufferSize fuel) (⟨id, garbage, 0, false, 0⟩, []) = none) :
    tmaxWorking id bufferSize garbage fuel [blocks] = none := by
  rw [tmaxWorking, List.foldlM_cons, workChunk, h]
  rfl

end Overrun

/-- A chunk as long as chunks can be. -/
def fullChunk : Chunk := ⟨zeroed, resChunkSize⟩

end CsdWorker.Tmax
