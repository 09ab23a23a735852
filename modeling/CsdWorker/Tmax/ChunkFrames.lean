import CsdWorker.Tmax.ResultBuffer

/-! # Framing both lists of chunks

One index runs through the `res` chunks and then through the chained ones, which are looked up with the same
index. With chunks in both lists the chunks behind the first list are missed, and the last one does not
exist. A chunk that does not fit into an empty buffer is offered to it again and again.
-/

namespace CsdWorker.Tmax

open Memory

set_option autoImplicit false

/-- The chunks of both lists with their flags, in the order of the frames. -/
def ChunkList.entries (chunkList : ChunkList) : List (Chunk × UInt8) :=
  chunkList.resChunk.map (·, 0) ++ chunkList.chainedChunk.map (·, 1)

def ChunkList.frames (chunkList : ChunkList) : List Bytes := chunkList.entries.map frameOf

def ChunkList.Sized (chunkList : ChunkList) : Prop := ∀ entry ∈ chunkList.entries, entry.1.used ≤ resChunkSize

/-- Every call that starts with chunk `k` or a later one comes back with the frames of the chunks from there on, as
far as they fit. -/
def FramesFrom (chunkList : ChunkList) (k : Nat) : Prop :=
  ∀ j ≥ k, ∀ (bigChunk : Mem) (bufferSize : Int) (totalLen : Nat), NoOverflow (max bufferSize totalLen) →
    ∃ w done rest, writeChunkListToBuffer chunkList bigChunk bufferSize j totalLen = some w ∧
      Fills bufferSize (chunkList.entries.drop j) j (read bigChunk 0 totalLen) w done rest

section Positions
variable {chunkList : ChunkList}

@[simp] theorem length_entries (chunkList : ChunkList) :
    chunkList.entries.length = chunkList.resChunk.length + chunkList.chainedChunk.length := by
  rw [ChunkList.entries, List.length_append, List.length_map, List.length_map]

theorem chunkAt_eq_entries (h : chunkList.resChunk = [] ∨ chunkList.chainedChunk = []) (i : Nat) :
    chunkAt chunkList i = chunkList.entries[i]? := by
  rw [chunkAt, ChunkList.entries]
  rcases h with h | h
  · rw [h, List.length_nil, if_neg (Nat.not_lt_zero i), List.map_nil, List.nil_append, List.getElem?_map]
  · rw [h, List.map_nil, List.append_nil, List.getElem?_map]
    split
    · rfl
    · rename_i hi
      rw [List.getElem?_nil, List.getElem?_eq_none (not_lt.mp hi)]
      rfl

/-- The index of the last chained chunk is too large for its list if there are `res` chunks. -/
theorem chunkAt_last (hRes : chunkList.resChunk ≠ []) (hChained : chunkList.chainedChunk ≠ []) :
    chunkAt chunkList (chunkList.entries.length - 1) = none := by
  have hr := List.length_pos_iff.mpr hRes
  have hc := List.length_pos_iff.mpr hChained
  rw [chunkAt, length_entries, if_neg (by omega), List.getElem?_eq_none (by omega)]
  rfl

/-- There is a chunk at position `i` within its own buffer, and an empty result has room for it. -/
def FitsAt (chunkList : ChunkList) (bufferSize : Int) (i : Nat) : Prop :=
  ∃ entry, chunkAt chunkList i = some entry ∧ entry.1.used ≤ resChunkSize ∧ (entry.1.used : Int) + 3 ≤ bufferSize

theorem writeFrom_passed {bufferSize : Int} {currentChunkIdx i n offset totalLen : Nat} {bigChunk : Mem} {w : Written}
    (h : writeFrom chunkList bufferSize currentChunkIdx i n offset totalLen bigChunk = some w) :
    (w.finished = true → ∀ j, i ≤ j → j < i + n → FitsAt chunkList bufferSize j) ∧
      (w.finished = false → ∀ j, i ≤ j → j < w.currentChunkIdx → FitsAt chunkList bufferSize j) := by
  induction n generalizing i offset totalLen bigChunk with
  | zero =>
    obtain rfl := Option.some_inj.mp h
    refine ⟨fun _ j hij hj => absurd hj (by omega), fun hw => ?_⟩
    cases hw
  | succ n ih =>
    rw [writeFrom] at h
    obtain ⟨entry, hEntry, -⟩ := Option.bind_eq_some_iff.mp h
    rw [← writeFrom, writeFrom_succ hEntry] at h
    split at h
    · obtain rfl := Option.some_inj.mp h
      refine ⟨fun hw => ?_, fun _ j hij hj => absurd hj (not_lt.mpr hij)⟩
      cases hw
    · obtain ⟨⟨hUsed, hInside⟩, hNext⟩ := Option.ite_none_right_eq_some.mp h
      have hHere : FitsAt chunkList bufferSize i := ⟨entry, hEntry, hUsed, by omega⟩
      obtain ⟨hFinished, hResumed⟩ := ih hNext
      constructor
      · intro hw j hij hj
        rcases Nat.eq_or_lt_of_le hij with rfl | hlt
        · exact hHere
        · exact hFinished hw j hlt (by omega)
      · intro hw j hij hj
        rcases Nat.eq_or_lt_of_le hij with rfl | hlt
        · exact hHere
        · exact hResumed hw j hlt hj

theorem writeChunkListToBuffer_eq (chunkList : ChunkList) (bigChunk : Mem) (bufferSize : Int) (k totalLen : Nat) :
    writeChunkListToBuffer chunkList bigChunk bufferSize k totalLen =
      writeFrom chunkList bufferSize k k (chunkList.entries.drop k).length totalLen totalLen bigChunk := by
  rw [writeChunkListToBuffer, List.length_drop, length_entries]

theorem writeChunkListToBuffer_fills {k : Nat} (h : ∀ i, k ≤ i → i < chunkList.entries.length →
    chunkAt chunkList i = chunkList.entries[i]?) (hSized : chunkList.Sized) (bigChunk : Mem) {bufferSize : Int}
    {totalLen : Nat} (hSmall : NoOverflow (max bufferSize totalLen)) :
    ∃ w done rest, writeChunkListToBuffer chunkList bigChunk bufferSize k totalLen = some w ∧
      Fills bufferSize (chunkList.entries.drop k) k (read bigChunk 0 totalLen) w done rest := by
  rw [writeChunkListToBuffer_eq]
  apply writeFrom_fills
  · intro j hj
    rw [List.length_drop] at hj
    rw [h (k + j) (Nat.le_add_right k j) (by omega), List.getElem?_drop]
  · intro entry hEntry
    exact hSized entry (List.mem_of_mem_drop hEntry)
  · exact hSmall

end Positions

/-- The frames are those of the two lists exactly when one of them is empty or there is nothing to write. -/
theorem framesFrom_iff (chunkList : ChunkList) (hSized : chunkList.Sized) (k : Nat) :
    FramesFrom chunkList k ↔ chunkList.resChunk = [] ∨ chunkList.chainedChunk = [] ∨
      chunkList.resChunk.length + chunkList.chainedChunk.length ≤ k := by
  constructor
  · intro hFrames
    by_contra hNot
    obtain ⟨hRes, hNot⟩ := not_or.mp hNot
    obtain ⟨hChained, hk⟩ := not_or.mp hNot
    -- a call for the last chunk alone
    have hLast : (chunkList.entries.drop (chunkList.entries.length - 1)).length = 0 + 1 := by
      rw [List.length_drop, length_entries]
      omega
    obtain ⟨w, done, rest, hCall, -⟩ :=
      hFrames (chunkList.entries.length - 1) (by rw [length_entries]; omega) zeroed 0 0
      (by decide)
    rw [writeChunkListToBuffer_eq, hLast, writeFrom, chunkAt_last hRes hChained] at hCall
    cases hCall
  · intro hCondition j hj bigChunk bufferSize totalLen hSmall
    refine writeChunkListToBuffer_fills (fun i hi hi' => ?_) hSized bigChunk hSmall
    rw [length_entries] at hi'
    rcases hCondition with h | h | h
    · exact chunkAt_eq_entries (Or.inl h) i
    · exact chunkAt_eq_entries (Or.inr h) i
    · omega

theorem chained_only_framed : FramesFrom ⟨[], [⟨ofBytes [1, 65], 2⟩]⟩ 0 :=
  (framesFrom_iff ⟨[], [⟨ofBytes [1, 65], 2⟩]⟩ (by simp [ChunkList.Sized, ChunkList.entries, resChunkSize]) 0).mpr
    (Or.inl rfl)

/-- With one chunk in each list the second frame is read from behind the list of chained chunks. -/
theorem mixed_lists_not_framed : ¬FramesFrom ⟨[⟨ofBytes [1, 65], 2⟩], [⟨ofBytes [1, 66], 2⟩]⟩ 0 := by
  intro hFrames
  obtain ⟨w, done, rest, hCall, -⟩ := hFrames 0 le_rfl zeroed 100 0 (by decide)
  cases hCall

section Flush
variable {chunkList : ChunkList} {bufferSize : Int}

/-- The loop ends, since a call with an empty buffer gets on. -/
structure FlushEnds (chunkList : ChunkList) (bufferSize : Int) (tResult : Result) (returned : List Result) : Prop where
  ends : ∃ fuel s, flushLoop chunkList bufferSize fuel 0 tResult returned = some s
  progress : ∀ i < chunkList.entries.length, ∀ data, ∃ w,
    writeChunkListToBuffer chunkList data bufferSize i 0 = some w ∧ (w.finished = true ∨ i < w.currentChunkIdx)

theorem flushLoop_succ {w : Written} {i : Nat} {tResult : Result}
    (h : writeChunkListToBuffer chunkList tResult.data bufferSize i tResult.length = some w) (fuel : Nat)
    (returned : List Result) :
    flushLoop chunkList bufferSize (fuel + 1) i tResult returned =
      if w.finished then some ({ tResult with data := w.bigChunk, length := w.totalLen }, returned)
      else flushLoop chunkList bufferSize fuel w.currentChunkIdx
        (initResult { tResult with data := w.bigChunk, length := w.totalLen } bufferSize)
        (returned ++ [{ tResult with data := w.bigChunk, length := w.totalLen }]) := by
  rw [flushLoop, h]
  rfl

theorem writeFrom_length_le {currentChunkIdx i n offset : Nat} {bigChunk : Mem} {w : Written}
    (h : writeFrom chunkList bufferSize currentChunkIdx i n offset offset bigChunk = some w) :
    (w.totalLen : Int) ≤ max bufferSize offset := by
  induction n generalizing i offset bigChunk with
  | zero =>
    obtain rfl := Option.some_inj.mp h
    exact le_max_right _ _
  | succ n ih =>
    rw [writeFrom] at h
    obtain ⟨entry, hEntry, -⟩ := Option.bind_eq_some_iff.mp h
    rw [← writeFrom, writeFrom_succ hEntry] at h
    split at h
    · obtain rfl := Option.some_inj.mp h
      exact le_max_right _ _
    · obtain ⟨⟨-, hInside⟩, hNext⟩ := Option.ite_none_right_eq_some.mp h
      have hLe := ih hNext
      push_cast at hLe
      omega

/-- Whatever is written stays inside the buffer. -/
theorem flushLoop_length_le {fuel i : Nat} {tResult : Result} {returned : List Result} {s : Result × List Result}
    (hLe : tResult.length ≤ bufferSize.toNat) (h : flushLoop chunkList bufferSize fuel i tResult returned = some s) :
    s.1.length ≤ bufferSize.toNat := by
  induction fuel generalizing i tResult returned with
  | zero => cases h
  | succ fuel ih =>
    obtain ⟨w, hCall, -⟩ := Option.bind_eq_some_iff.mp h
    rw [flushLoop_succ hCall] at h
    have hLength := writeFrom_length_le hCall
    split at h
    · obtain rfl := Option.some_inj.mp h
      change w.totalLen ≤ _
      omega
    · exact ih (Nat.zero_le _) h

/-- A loop that ends has passed every position. -/
theorem fitsAt_of_flushLoop {fuel i : Nat} {tResult : Result} {returned : List Result} {s : Result × List Result}
    (h : flushLoop chunkList bufferSize fuel i tResult returned = some s) :
    ∀ j, i ≤ j → j < chunkList.entries.length → FitsAt chunkList bufferSize j := by
  induction fuel generalizing i tResult returned with
  | zero => cases h
  | succ fuel ih =>
    intro j hij hj
    obtain ⟨w, hCall, -⟩ := Option.bind_eq_some_iff.mp h
    rw [flushLoop_succ hCall] at h
    rw [writeChunkListToBuffer_eq] at hCall
    obtain ⟨hFinished, hResumed⟩ := writeFrom_passed hCall
    cases hw : w.finished with
    | true => exact hFinished hw j hij (by rw [List.length_drop]; omega)
    | false =>
      rw [hw] at h
      rcases Nat.lt_or_ge j w.currentChunkIdx with hlt | hge
      · exact hResumed hw j hij hlt
      · exact ih h j hge hj

/-- The chunks are in one list, within their own buffers, and each of them fits into a result. -/
structure Flushable (chunkList : ChunkList) (bufferSize : Int) : Prop where
  oneList : chunkList.resChunk = [] ∨ chunkList.chainedChunk = []
  sized : chunkList.Sized
  fits : ∀ entry ∈ chunkList.entries, (entry.1.used : Int) + 3 ≤ bufferSize

theorem flushable_of_fitsAt (h : ∀ j < chunkList.entries.length, FitsAt chunkList bufferSize j) :
    Flushable chunkList bufferSize := by
  have hOne : chunkList.resChunk = [] ∨ chunkList.chainedChunk = [] := by
    by_contra hNot
    obtain ⟨hRes, hChained⟩ := not_or.mp hNot
    have hPos := List.length_pos_iff.mpr hRes
    obtain ⟨entry, hEntry, -⟩ := h (chunkList.entries.length - 1) (by rw [length_entries]; omega)
    rw [chunkAt_last hRes hChained] at hEntry
    cases hEntry
  have hEach : ∀ entry ∈ chunkList.entries, entry.1.used ≤ resChunkSize ∧ (entry.1.used : Int) + 3 ≤ bufferSize := by
    intro entry hEntry
    obtain ⟨j, hj, hGet⟩ := List.mem_iff_getElem.mp hEntry
    obtain ⟨found, hAt, hFits⟩ := h j hj
    rw [chunkAt_eq_entries hOne, List.getElem?_eq_getElem hj, hGet, Option.some_inj] at hAt
    subst hAt
    exact hFits
  exact ⟨hOne, fun entry hEntry => (hEach entry hEntry).1, fun entry hEntry => (hEach entry hEntry).2⟩

/-- One call: it has written everything, or the next one starts with an empty buffer, further on if this one
did. -/
theorem writeChunkListToBuffer_progress (h : Flushable chunkList bufferSize) (data : Mem) (i : Nat) {totalLen : Nat}
    (hSmall : NoOverflow (max bufferSize totalLen)) :
    ∃ w, writeChunkListToBuffer chunkList data bufferSize i totalLen = some w ∧
      (w.finished = true ∨ i ≤ w.currentChunkIdx ∧ w.currentChunkIdx < chunkList.entries.length ∧
        (totalLen = 0 → i < w.currentChunkIdx)) := by
  obtain ⟨w, done, rest, hCall, hFills⟩ := writeChunkListToBuffer_fills
    (fun j (_ : i ≤ j) _ => chunkAt_eq_entries h.oneList j) h.sized data hSmall
  refine ⟨w, hCall, ?_⟩
  cases hw : w.finished with
  | true => exact Or.inl rfl
  | false =>
    right
    obtain ⟨hIdx, entry, hHead, hOver⟩ := hFills.resume hw
    obtain ⟨rest, rfl⟩ := List.head?_eq_some_iff.mp hHead
    have hSplit := congrArg List.length hFills.split
    rw [List.length_drop, List.length_append, List.length_cons] at hSplit
    refine ⟨by omega, by omega, fun hZero => ?_⟩
    rcases Nat.eq_zero_or_pos done.length with hNone | hSome
    · have hLength := congrArg List.length hFills.bytes
      have hEntry : entry ∈ chunkList.entries :=
        List.mem_of_mem_drop (hFills.split ▸ List.mem_append_right done List.mem_cons_self)
      have hFits := h.fits entry hEntry
      rw [List.length_eq_zero_iff.mp hNone] at hLength
      simp only [length_read, hZero, List.map_nil, List.flatten_nil, List.append_nil] at hLength
      rw [hLength, length_frameOf] at hOver
      push_cast at hOver
      omega
    · omega

theorem flushLoop_ends_of_empty (h : Flushable chunkList bufferSize) (hSmall : NoOverflow (max bufferSize 0))
    (r i fuel : Nat) (hr : chunkList.entries.length - i = r) (hFuel : r + 1 ≤ fuel) {tResult : Result}
    (hEmpty : tResult.length = 0) (returned : List Result) :
    ∃ s, flushLoop chunkList bufferSize fuel i tResult returned = some s := by
  induction r using Nat.strong_induction_on generalizing i fuel tResult returned with
  | h r ih =>
    obtain ⟨fuel, rfl⟩ := Nat.exists_eq_add_of_le' (show 1 ≤ fuel by omega)
    have hStart : NoOverflow (max bufferSize tResult.length) := by
      rw [hEmpty]
      exact hSmall
    obtain ⟨w, hCall, hNext⟩ := writeChunkListToBuffer_progress h tResult.data i hStart
    rw [flushLoop_succ hCall]
    rcases hNext with hFinished | ⟨-, hLt, hFurther⟩
    · rw [hFinished]
      exact ⟨_, rfl⟩
    · have hMore := hFurther hEmpty
      split
      · exact ⟨_, rfl⟩
      · exact ih (chunkList.entries.length - w.currentChunkIdx) (by omega) w.currentChunkIdx fuel rfl (by omega) rfl _

theorem flushLoop_ends (h : Flushable chunkList bufferSize) {fuel : Nat} (hFuel : chunkList.entries.length + 2 ≤ fuel)
    {tResult : Result} (hSmall : NoOverflow (max bufferSize tResult.length)) (returned : List Result) :
    ∃ s, flushLoop chunkList bufferSize fuel 0 tResult returned = some s := by
  obtain ⟨fuel, rfl⟩ := Nat.exists_eq_add_of_le' (show 1 ≤ fuel by omega)
  obtain ⟨w, hCall, hNext⟩ := writeChunkListToBuffer_progress h tResult.data 0 hSmall
  rw [flushLoop_succ hCall]
  split
  · exact ⟨_, rfl⟩
  · exact flushLoop_ends_of_empty h (hSmall.mono (by omega)) _ w.currentChunkIdx _ rfl (by omega) rfl _

end Flush

/-- The flush loop of a block ends exactly when its chunks are all of one kind, within their buffers, and each fits
into the buffer of the results. -/
theorem flushEnds_iff (chunkList : ChunkList) (bufferSize : Int) (tResult : Result) (returned : List Result)
    (hSmall : NoOverflow (max bufferSize tResult.length)) :
    FlushEnds chunkList bufferSize tResult returned ↔ Flushable chunkList bufferSize := by
  constructor
  · intro hEnds
    obtain ⟨fuel, s, hLoop⟩ := hEnds.ends
    exact flushable_of_fitsAt fun j hj => fitsAt_of_flushLoop hLoop j (Nat.zero_le j) hj
  · intro hFlushable
    refine ⟨⟨_, flushLoop_ends hFlushable le_rfl hSmall returned⟩, fun i _ data => ?_⟩
    obtain ⟨w, hCall, hNext⟩ := writeChunkListToBuffer_progress hFlushable data i
      (hSmall.mono (max_le_max_left bufferSize (Nat.cast_le.mpr (Nat.zero_le tResult.length))))
    exact ⟨w, hCall, hNext.imp_right fun h => h.2.2 rfl⟩

def emptyResult : Result := ⟨7, zeroed, 0, false, 0⟩

theorem small_chunk_flushed : FlushEnds ⟨[⟨ofBytes [1, 65, 0], 3⟩], []⟩ 6 emptyResult [] :=
  (flushEnds_iff ⟨[⟨ofBytes [1, 65, 0], 3⟩], []⟩ 6 emptyResult [] (by decide)).mpr
    ⟨Or.inr rfl, by simp [ChunkList.Sized, ChunkList.entries, resChunkSize], by simp [ChunkList.entries]⟩

/-- The row `A` of the first block makes a chunk of three bytes, and a frame of six. -/
theorem frame_larger_than_buffer :
    ∃ chunkList, csdFilterAndEvalOut firstColumnFilter (fun _ => zeroed) twoRowBlock anyCtx createChunkList =
        some chunkList ∧ ¬FlushEnds chunkList 5 emptyResult [] := by
  refine ⟨⟨[⟨_, 3⟩], []⟩, rfl, fun hEnds => ?_⟩
  obtain ⟨fuel, s, hLoop⟩ := hEnds.ends
  obtain ⟨entry, hEntry, hFits⟩ := fitsAt_of_flushLoop hLoop 0 le_rfl Nat.zero_lt_one
  obtain rfl := Option.some_inj.mp hEntry
  exact absurd hFits.2 (by decide)

end CsdWorker.Tmax
