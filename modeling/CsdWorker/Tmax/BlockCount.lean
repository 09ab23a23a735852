import CsdWorker.Tmax.ChunkCount

/-! # The block count of the monitoring manager

`Worker::tmax_working` calls `T_AddBlockCount` at the end of every chunk and once more at the end of the snippet, each
time with `chunk_count` of the result in work. That is a running count, which `init_result` sets back when a full
buffer is returned; it is added again and again, not what it has grown by.
-/

namespace CsdWorker.Tmax

open Memory Endian Packing Run

set_option autoImplicit false

def ulongLongMax : Nat := 2 ^ 64 - 1

def tAddBlockCount (count : Nat) (addBlock : Int) : Nat :=
  if unsign 8 (ulongLongMax - addBlock) < count then ulongLongMax - count else unsign 8 (count + addBlock)

/-- The total that `T_HandleGetMonitoring` reports. `T_GetAccumulateBlockCount` returns an `unsigned int`. -/
def tGetAccumulateBlockCount (count : Nat) : Nat := unsign 4 count

section Model
variable (fi : FilterInfo) (bufferSize : Int) (fuel : Nat) (reused : Nat → Outcome)

def FileState.chunkCount (s : FileState) : Option Nat := s.work.map fun work => work.1.chunkCount

/-- The arguments of the calls of `T_AddBlockCount` from here on. A worker that does not come back from a block makes
no more calls. -/
def blockCounts (s : FileState) : List (List Outcome) → List Nat
  | [] => s.chunkCount.toList
  | outcomes :: chunks =>
    (outcomes.foldl (blockStep fi bufferSize fuel reused) s).chunkCount.toList ++
      blockCounts (chunkStep fi bufferSize fuel reused s outcomes) chunks

def snippetBlockCounts (id : Int) (garbage : Mem) (chunks : List (List Outcome)) : List Nat :=
  blockCounts fi bufferSize fuel reused ⟨[], some (⟨id, garbage, 0, false, 0⟩, [])⟩ chunks

end Model

def addBlockCounts (counts : List Nat) (count : Nat) : Nat :=
  counts.foldl (fun count (added : Nat) => tAddBlockCount count added) count

/-- What happens to the count: a block without rows, a block with rows whose chunks do or do not fill the buffer, the
end of a chunk. -/
inductive Event where
  | empty
  | kept
  | flushed
  | chunkEnd
  deriving DecidableEq, Repr

/-- The empty blocks and the chunk ends behind the last flush. -/
def sinceFlush (history : List Event) : Nat := (history.rtakeWhile (· ≠ .flushed)).countP (· ≠ .kept)

/-- What has happened at the end of each chunk and at the end of the snippet. -/
def histories (history : List Event) : List (List Event) → List (List Event)
  | [] => [history]
  | events :: pattern => (history ++ events) :: histories (history ++ events ++ [.chunkEnd]) pattern

/-- The sum of the empty blocks and chunk ends since the last flush, over the ends of the chunks and of the snippet. -/
def countSum (events : List (List Event)) : Nat := ((histories [] events).map sinceFlush).sum

section Pattern
variable (bufferSize : Int)

/-- What comes of a block, by its frames if it has rows. `p` is how the frames before it lie in the results. -/
def blockEvent (p : Batches Bytes) : Option (List Bytes) → Event
  | none => .empty
  | some frames => if (packFrames bufferSize p frames).closed.length = p.closed.length then .kept else .flushed

def blockEvents (p : Batches Bytes) : List (Option (List Bytes)) → List Event
  | [] => []
  | block :: blocks => blockEvent bufferSize p block :: blockEvents (packFrames bufferSize p (block.getD [])) blocks

def pattern (p : Batches Bytes) : List (List (Option (List Bytes))) → List (List Event)
  | [] => []
  | blocks :: chunks =>
    blockEvents bufferSize p blocks :: pattern (packFrames bufferSize p (blocks.flatMap (·.getD []))) chunks

end Pattern

/-- The frames of a block that has rows. -/
def framesIn (fi : FilterInfo) (block : Block) : Option (List Bytes) :=
  (filterBlock fi block).join.map ChunkList.frames

/-- The pattern of empty blocks and flushes, from the lengths of the frames. -/
def snippetPattern (fi : FilterInfo) (bufferSize : Int) (chunks : List (List Block)) : List (List Event) :=
  pattern bufferSize empty (chunks.map (List.map (framesIn fi)))

theorem sinceFlush_concat (history : List Event) (event : Event) :
    sinceFlush (history ++ [event]) =
      if event = .flushed then 0 else sinceFlush history + if event = .kept then 0 else 1 := by
  rw [sinceFlush, List.rtakeWhile_concat]
  cases event with
  | flushed => rfl
  | kept => simp [sinceFlush]
  | empty => simp [sinceFlush]
  | chunkEnd => simp [sinceFlush]

section Counts
variable {fi : FilterInfo} {bufferSize : Int} {fuel : Nat} {reused : Nat → Outcome} {p : Batches Bytes}

/-- The count is kept until a result is returned, and is 0 from then on. -/
theorem flushLoop_chunkCount {chunkList : ChunkList} {i : Nat} {tResult : Result} {returned : List Result}
    {s : Result × List Result} (h : flushLoop chunkList bufferSize fuel i tResult returned = some s) :
    s.2.length = returned.length ∧ s.1.chunkCount = tResult.chunkCount ∨
      returned.length < s.2.length ∧ s.1.chunkCount = 0 := by
  induction fuel generalizing i tResult returned with
  | zero => cases h
  | succ fuel ih =>
    obtain ⟨written, hCall, -⟩ := Option.bind_eq_some_iff.mp h
    rw [flushLoop_succ hCall] at h
    split at h
    · obtain rfl := Option.some_inj.mp h
      exact Or.inl ⟨rfl, rfl⟩
    · right
      rcases ih h with ⟨hLength, hCount⟩ | ⟨hLength, hCount⟩
      · rw [List.length_append, List.length_singleton] at hLength
        exact ⟨by omega, hCount⟩
      · rw [List.length_append, List.length_singleton] at hLength
        exact ⟨by omega, hCount⟩

theorem Holds.length_returned {s : Result × List Result} (h : Holds p s) : s.2.length = p.closed.length := by
  have hLength := congrArg List.length h.returned
  rwa [List.length_map, List.length_map] at hLength

/-- One block: how its frames lie in the results, and what it does to the count. -/
theorem workData_packs (hSmall : NoOverflow bufferSize) {w w' : Result × List Result} {block : Block}
    {history : List Event} (hHolds : Holds p w) (hWithin : Within bufferSize w)
    (hCount : w.1.chunkCount = sinceFlush history) (h : workData fi bufferSize fuel w block = some w') :
    Holds (packFrames bufferSize p ((framesIn fi block).getD [])) w' ∧
      w'.1.chunkCount = sinceFlush (history ++ [blockEvent bufferSize p (framesIn fi block)]) := by
  obtain ⟨hFiltered, hComes, hFlushable⟩ := comes_of_workData h
  obtain ⟨filtered, hFilter, hWork⟩ := Option.bind_eq_some_iff.mp h
  obtain rfl := Option.some_inj.mp (hFilter.symm.trans hComes)
  cases filtered with
  | none =>
    have hFrames : framesIn fi block = none := by rw [framesIn, hFilter]; rfl
    obtain rfl := Option.some_inj.mp hWork
    rw [hFrames, sinceFlush_concat]
    exact ⟨⟨hHolds.returned, hHolds.current⟩, congrArg (· + 1) hCount⟩
  | some chunkList =>
    have hFrames : framesIn fi block = some chunkList.frames := by rw [framesIn, hFilter]; rfl
    obtain ⟨-, hPacked⟩ := flushLoop_packs (hFlushable chunkList rfl) hSmall hHolds hWithin hWork
    rw [List.drop_zero] at hPacked
    rw [hFrames, Option.getD_some, sinceFlush_concat, blockEvent]
    refine ⟨hPacked, ?_⟩
    rw [← hPacked.length_returned, ← hHolds.length_returned]
    rcases flushLoop_chunkCount hWork with ⟨hKept, hSame⟩ | ⟨hMore, hZero⟩
    · rw [if_pos hKept, hSame, hCount]
      rfl
    · rw [if_neg hMore.ne', hZero]
      rfl

theorem run_workData_packs (hSmall : NoOverflow bufferSize) {w w' : Result × List Result} {blocks : List Block}
    {history : List Event} (hHolds : Holds p w) (hWithin : Within bufferSize w)
    (hCount : w.1.chunkCount = sinceFlush history) (h : run (workData fi bufferSize fuel) w blocks = some w') :
    Holds (packFrames bufferSize p ((blocks.map (framesIn fi)).flatMap (·.getD []))) w' ∧ Within bufferSize w' ∧
      w'.1.chunkCount = sinceFlush (history ++ blockEvents bufferSize p (blocks.map (framesIn fi))) := by
  induction blocks generalizing w p history with
  | nil =>
    obtain rfl := Option.some_inj.mp h
    exact ⟨hHolds, hWithin, by rw [List.map_nil, blockEvents, List.append_nil, hCount]⟩
  | cons block blocks ih =>
    rw [run_cons] at h
    obtain ⟨next, hFirst, hRest⟩ := Option.bind_eq_some_iff.mp h
    obtain ⟨hHolds', hCount'⟩ := workData_packs hSmall hHolds hWithin hCount hFirst
    obtain ⟨hEnd, hWithin', hLast⟩ := ih hHolds' (workData_within hWithin hFirst) hCount' hRest
    rw [List.map_cons, List.flatMap_cons, blockEvents, packFrames, pack_append]
    refine ⟨hEnd, hWithin', ?_⟩
    rw [hLast, List.append_assoc, List.singleton_append]

theorem blockCounts_eq (hSmall : NoOverflow bufferSize) {chunks : List (List Outcome)} {s : FileState}
    {w last : Result × List Result} {history : List Event} (hWork : s.work = some w) (hHolds : Holds p w)
    (hWithin : Within bufferSize w) (hCount : w.1.chunkCount = sinceFlush history)
    (h : run (workBlocks fi bufferSize fuel) w (chunkReads reused s.calls chunks) = some last) :
    blockCounts fi bufferSize fuel reused s chunks = (histories history
      (pattern bufferSize p ((chunkReads reused s.calls chunks).map (List.map (framesIn fi))))).map sinceFlush := by
  -- `history` is what has happened before, and the count of the result in work is read from it
  induction chunks generalizing s w p history with
  | nil => rw [blockCounts, FileState.chunkCount, hWork, Option.map_some, hCount]; rfl
  | cons outcomes chunks ih =>
    rw [chunkReads, run_cons] at h
    obtain ⟨next, hFirst, hRest⟩ := Option.bind_eq_some_iff.mp h
    obtain ⟨before, hBlocks, rfl⟩ := Option.map_eq_some_iff.mp hFirst
    obtain ⟨hEnd, hCalls⟩ := foldl_blockStep_eq fi bufferSize fuel reused outcomes hWork
    rw [hBlocks] at hEnd
    have hNext : (chunkStep fi bufferSize fuel reused s outcomes).calls = callsAfter reused s.calls outcomes :=
      hCalls (by rw [hEnd]; rfl)
    rw [← hNext] at hRest
    obtain ⟨hHolds', hWithin', hAfter⟩ := run_workData_packs hSmall hHolds hWithin hCount hBlocks
    have hChunk : (countChunk before).1.chunkCount = sinceFlush (history ++
        blockEvents bufferSize p ((readsFrom reused s.calls outcomes).map (framesIn fi)) ++ [.chunkEnd]) := by
      rw [sinceFlush_concat, ← hAfter]
      rfl
    rw [blockCounts, FileState.chunkCount, hEnd, Option.map_some, hAfter,
      ih (chunkStep_work hEnd) ⟨hHolds'.returned, hHolds'.current⟩ hWithin' hChunk hRest, chunkReads, ← hNext]
    rfl

end Counts

section Total

theorem tAddBlockCount_eq {count added : Nat} (hLimit : count + added < 2 ^ 64) :
    tAddBlockCount count added = count + added := by
  have hRoom : unsign 8 ((ulongLongMax : Int) - added) = ulongLongMax - added :=
    unsign_sub (by rw [ulongLongMax]; omega) (by decide)
  rw [tAddBlockCount, hRoom, if_neg (by rw [ulongLongMax]; omega), ← Nat.cast_add]
  exact unsign_of_lt (by omega)

/-- Below the limit the calls add up, in whatever order those of several workers are made. -/
theorem addBlockCounts_eq {counts : List Nat} {count : Nat} (hLimit : count + counts.sum < 2 ^ 64) :
    addBlockCounts counts count = count + counts.sum := by
  induction counts generalizing count with
  | nil => rfl
  | cons added counts ih =>
    rw [List.sum_cons] at hLimit ⊢
    have hNext := ih (show count + added + counts.sum < 2 ^ 64 by omega)
    rw [addBlockCounts, List.foldl_cons, tAddBlockCount_eq (by omega), ← Nat.add_assoc]
    exact hNext

theorem tGetAccumulateBlockCount_eq_self_iff (count : Nat) :
    tGetAccumulateBlockCount count = count ↔ count < 2 ^ 32 := by
  rw [tGetAccumulateBlockCount, unsign, ← Int.natCast_emod, Int.toNat_natCast]
  exact Nat.mod_eq_iff_lt (by decide)

theorem length_pattern (bufferSize : Int) (p : Batches Bytes) (chunks : List (List (Option (List Bytes)))) :
    (pattern bufferSize p chunks).length = chunks.length := by
  induction chunks generalizing p with
  | nil => rfl
  | cons blocks chunks ih => rw [pattern, List.length_cons, List.length_cons, ih]

theorem sinceFlush_append_kept {events : List Event} (hKept : ∀ event ∈ events, event = .kept) (history : List Event) :
    sinceFlush (history ++ events) = sinceFlush history := by
  induction events generalizing history with
  | nil => rw [List.append_nil]
  | cons event events ih =>
    obtain ⟨rfl, hRest⟩ := List.forall_mem_cons.mp hKept
    rw [← List.singleton_append, ← List.append_assoc, ih hRest, sinceFlush_concat]
    rfl

theorem sum_histories_kept {events : List (List Event)} (hKept : ∀ chunk ∈ events, ∀ event ∈ chunk, event = .kept)
    (history : List Event) :
    2 * ((histories history events).map sinceFlush).sum =
      (events.length + 1) * (2 * sinceFlush history + events.length) := by
  induction events generalizing history with
  | nil =>
    change 2 * (sinceFlush history + 0) = (0 + 1) * (2 * sinceFlush history + 0)
    omega
  | cons chunk events ih =>
    obtain ⟨hFirst, hRest⟩ := List.forall_mem_cons.mp hKept
    have hSame := sinceFlush_append_kept hFirst history
    have hEnd : sinceFlush (history ++ chunk ++ [.chunkEnd]) = sinceFlush history + 1 := by
      rw [sinceFlush_concat, hSame]
      rfl
    rw [histories, List.map_cons, List.sum_cons, Nat.mul_add, ih hRest, hSame, hEnd, List.length_cons]
    ring

theorem consecutive_sum_eq_iff {sum n : Nat} (hSum : 2 * sum = (n + 1) * n) : sum = n ↔ n ≤ 1 := by
  constructor
  · rintro rfl
    by_contra hMany
    have hTwice := Nat.mul_le_mul_right sum (show 3 ≤ sum + 1 by omega)
    omega
  · intro hFew
    interval_cases n <;> omega

end Total

/-- The worker gets to the end of the snippet, the block count has grown by the number of chunks, and it is reported
so. -/
def ReportsChunks (fi : FilterInfo) (id bufferSize : Int) (garbage : Mem) (reused : Nat → Outcome)
    (chunks : List (List Outcome)) (count : Nat) : Prop :=
  ∃ fuel results, (tmaxWorkingFile fi bufferSize fuel reused id garbage chunks).2 = some results ∧
    addBlockCounts (snippetBlockCounts fi bufferSize fuel reused id garbage chunks) count = count + chunks.length ∧
    tGetAccumulateBlockCount (addBlockCounts (snippetBlockCounts fi bufferSize fuel reused id garbage chunks) count) =
      count + chunks.length

theorem snippetBlockCounts_eq {fi : FilterInfo} {id bufferSize : Int} {garbage : Mem} {fuel : Nat}
    {reused : Nat → Outcome} {chunks : List (List Outcome)} (hSmall : NoOverflow bufferSize)
    {last : Result × List Result} (h : run (workBlocks fi bufferSize fuel) (⟨id, garbage, 0, false, 0⟩, [])
      (chunkReads reused [] chunks) = some last) :
    snippetBlockCounts fi bufferSize fuel reused id garbage chunks =
      (histories [] (snippetPattern fi bufferSize (chunkReads reused [] chunks))).map sinceFlush :=
  blockCounts_eq (p := empty) hSmall (s := ⟨[], some (⟨id, garbage, 0, false, 0⟩, [])⟩) rfl ⟨rfl, rfl⟩ (Nat.zero_le _)
    rfl h

/-- A snippet of `n` chunks adds `n` to the block count, and the total is reported so, if and only if the worker comes
back from every block that it reads, the numbers of empty blocks and chunk ends since the last flush, at the end of
each chunk and at the end of the snippet, add up to `n`, and the total is one of 32 bits. Without an empty block and
without a flush the sum is `n` for one chunk at most. -/
theorem block_count_iff (fi : FilterInfo) (id bufferSize : Int) (garbage : Mem) (reused : Nat → Outcome)
    (chunks : List (List Outcome)) (count : Nat) (hSmall : NoOverflow bufferSize)
    (hLimit : count + countSum (snippetPattern fi bufferSize (chunkReads reused [] chunks)) < 2 ^ 64) :
    let events := snippetPattern fi bufferSize (chunkReads reused [] chunks)
    (ReportsChunks fi id bufferSize garbage reused chunks count ↔
      (∀ block ∈ (chunkReads reused [] chunks).flatten, Comes fi bufferSize block) ∧
        countSum events = chunks.length ∧ count + chunks.length < 2 ^ 32) ∧
    ((∀ chunk ∈ events, ∀ event ∈ chunk, event = .kept) → (countSum events = chunks.length ↔ chunks.length ≤ 1)) := by
  intro events
  have hAdded : ∀ fuel last, run (workBlocks fi bufferSize fuel) (⟨id, garbage, 0, false, 0⟩, [])
      (chunkReads reused [] chunks) = some last →
        addBlockCounts (snippetBlockCounts fi bufferSize fuel reused id garbage chunks) count =
          count + countSum events := by
    intro fuel last hRun
    rw [snippetBlockCounts_eq hSmall hRun]
    exact addBlockCounts_eq hLimit
  refine ⟨⟨?_, ?_⟩, ?_⟩
  · rintro ⟨fuel, results, hResults, hTotal, hReported⟩
    rw [tmaxWorkingFile_results] at hResults
    obtain ⟨last, hRun, -⟩ := Option.map_eq_some_iff.mp hResults
    refine ⟨(run_workBlocks_counted hRun).2, ?_, ?_⟩
    · rw [hAdded fuel last hRun] at hTotal
      omega
    · rw [hTotal] at hReported
      exact (tGetAccumulateBlockCount_eq_self_iff _).mp hReported
  · rintro ⟨hComes, hSum, hReported⟩
    obtain ⟨fuel, hFuel⟩ := exists_enough fi hSmall (chunkReads reused [] chunks).flatten
    obtain ⟨last, hRun⟩ := exists_run_workBlocks (w := (⟨id, garbage, 0, false, 0⟩, [])) (Nat.zero_le _) hComes
      (hFuel fuel le_rfl)
    have hTotal := hAdded fuel last hRun
    rw [hSum] at hTotal
    refine ⟨fuel, last.2 ++ [last.1], by rw [tmaxWorkingFile_results, hRun]; rfl, hTotal, ?_⟩
    rw [hTotal]
    exact (tGetAccumulateBlockCount_eq_self_iff _).mpr hReported
  · intro hKept
    have hSum := sum_histories_kept hKept []
    have hLength : events.length = chunks.length := by
      exact (length_pattern _ _ _).trans ((List.length_map _).trans (length_chunkReads _ _ _))
    rw [hLength] at hSum
    exact consecutive_sum_eq_iff (hSum.trans (congrArg _ (Nat.zero_add _)))

theorem single_chunk_counted : ReportsChunks firstColumnFilter 7 65536 zeroed unused [[twoRows]] 0 := by
  refine (block_count_iff firstColumnFilter 7 65536 zeroed unused [[twoRows]] 0 (by decide) (by decide)).1.mpr
    ⟨?_, by decide, by decide⟩
  intro block hBlock
  obtain rfl := List.mem_singleton.mp hBlock
  exact twoRowBlock_comes

/-- Two chunks of one block with rows each are counted as three. -/
theorem two_chunks_counted_as_three :
    ∃ results, (tmaxWorkingFile firstColumnFilter 65536 3 unused 7 zeroed [[twoRows], [twoRows]]).2 = some results ∧
      addBlockCounts (snippetBlockCounts firstColumnFilter 65536 3 unused 7 zeroed [[twoRows], [twoRows]]) 0 = 3 :=
  ⟨_, rfl, by decide⟩

end CsdWorker.Tmax
