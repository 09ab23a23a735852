import CsdWorker.Tmax.BlockFile

/-! # The chunk counts of a snippet

`chunk_count` of the result in work grows with every chunk and with every block without rows. A result that
is returned takes its count along, so nothing is lost, but the blocks without rows are counted on top of the
chunks. After a block that cannot be read the worker may count those of another file.
-/

namespace CsdWorker.Tmax

open Memory Run

set_option autoImplicit false

/-- What has been counted: in the returned results and in the one in work. -/
def counted (s : Result × List Result) : Nat := (s.2.map Result.chunkCount).sum + s.1.chunkCount

/-- The results of the snippet are all there, and their counts add up to the number of its chunks, whatever other
workers do. -/
def CountsChunks (fi : FilterInfo) (id bufferSize : Int) (garbage : Mem) (chunks : List (List Outcome)) : Prop :=
  ∀ reused, ∃ fuel results, (tmaxWorkingFile fi bufferSize fuel reused id garbage chunks).2 = some results ∧
    (results.map Result.chunkCount).sum = chunks.length

def Block.hasRows (block : Block) : Bool := rowcnt (dblkGetDl block.blk) ≠ 0

def emptyBlocks (blocks : List Block) : Nat := blocks.countP fun block => !block.hasRows

section Met
variable (reused : Nat → Outcome)

/-- What the worker meets after `calls`. -/
def met : List Call → List Outcome → List Outcome
  | _, [] => []
  | calls, outcome :: outcomes =>
    meets reused calls outcome :: met (calls ++ (meets reused calls outcome).calls) outcomes

def callsAfter (calls : List Call) (outcomes : List Outcome) : List Call :=
  calls ++ (met reused calls outcomes).flatMap Outcome.calls

/-- The blocks that are read, and worked on. -/
def readsFrom (calls : List Call) (outcomes : List Outcome) : List Block :=
  (met reused calls outcomes).filterMap Outcome.block

def chunkReads : List Call → List (List Outcome) → List (List Block)
  | _, [] => []
  | calls, outcomes :: chunks => readsFrom reused calls outcomes :: chunkReads (callsAfter reused calls outcomes) chunks

theorem met_append (calls : List Call) (xs ys : List Outcome) :
    met reused calls (xs ++ ys) = met reused calls xs ++ met reused (callsAfter reused calls xs) ys := by
  induction xs generalizing calls with
  | nil => rw [callsAfter, met, List.flatMap_nil, List.append_nil, List.nil_append, List.nil_append]
  | cons x xs ih =>
    rw [List.cons_append, met, ih, met, callsAfter, callsAfter, met, List.flatMap_cons, List.cons_append,
      List.append_assoc]

theorem flatten_chunkReads (calls : List Call) (chunks : List (List Outcome)) :
    (chunkReads reused calls chunks).flatten = readsFrom reused calls chunks.flatten := by
  induction chunks generalizing calls with
  | nil => rfl
  | cons outcomes chunks ih =>
    rw [chunkReads, List.flatten_cons, ih, List.flatten_cons, readsFrom, readsFrom, readsFrom, met_append,
      List.filterMap_append]

theorem length_chunkReads (calls : List Call) (chunks : List (List Outcome)) :
    (chunkReads reused calls chunks).length = chunks.length := by
  induction chunks generalizing calls with
  | nil => rfl
  | cons outcomes chunks ih => rw [chunkReads, List.length_cons, List.length_cons, ih]

/-- As long as only the last block may fail, the worker meets its own file. -/
theorem met_of_readable {calls : List Call} {outcomes : List Outcome} (hOpen : .close ∉ calls)
    (h : ∀ outcome ∈ outcomes.dropLast, outcome.block.isSome) : met reused calls outcomes = outcomes := by
  induction outcomes generalizing calls with
  | nil => rfl
  | cons outcome outcomes ih =>
    have hOwn : meets reused calls outcome = outcome := if_neg hOpen
    rw [met, hOwn]
    cases outcomes with
    | nil => rfl
    | cons next outcomes =>
      rw [List.dropLast_cons_of_ne_nil (List.cons_ne_nil _ _)] at h
      obtain ⟨hFirst, hRest⟩ := List.forall_mem_cons.mp h
      have hCalls : Call.close ∉ outcome.calls := by
        cases outcome with
        | data block => simp [Outcome.calls]
        | seekFailed => cases hFirst
        | readFailed => cases hFirst
      rw [ih (fun hIn => (List.mem_append.mp hIn).elim hOpen hCalls) hRest]

/-- The block behind a failing one is one of another file. -/
theorem exists_reused_mem_met (calls : List Call) (before : List Outcome) {failing : Outcome} (next : Outcome)
    (after : List Outcome) (hFailed : failing.block = none) :
    ∃ k, reused k ∈ met reused calls (before ++ failing :: next :: after) := by
  rw [met_append]
  generalize callsAfter reused calls before = calls'
  have hSecond : ∀ calls'', .close ∈ calls'' → meets reused calls'' next = reused calls''.length :=
    fun _ hIn => if_pos hIn
  by_cases hClosed : .close ∈ calls'
  · exact ⟨calls'.length, List.mem_append_right _ (by rw [met, meets, if_pos hClosed]; exact List.mem_cons_self)⟩
  · refine ⟨(calls' ++ failing.calls).length, List.mem_append_right _ ?_⟩
    rw [met, meets, if_neg hClosed, met, hSecond _ (List.mem_append_right _ (close_mem_calls hFailed))]
    exact List.mem_cons_of_mem _ List.mem_cons_self

end Met

section Work
variable {fi : FilterInfo} {bufferSize : Int} {fuel : Nat} {reused : Nat → Outcome}

theorem blockStep_eq {s : FileState} {w : Result × List Result} (hWork : s.work = some w) (outcome : Outcome) :
    blockStep fi bufferSize fuel reused s outcome =
      ⟨s.calls ++ (meets reused s.calls outcome).calls,
        run (workData fi bufferSize fuel) w (meets reused s.calls outcome).block.toList⟩ := by
  rw [blockStep, hWork]
  cases hBlock : (meets reused s.calls outcome).block with
  | none => simp only [hBlock]; rfl
  | some block =>
    simp only [hBlock]
    rw [Option.toList_some, run_cons]
    exact congrArg _ (Option.bind_fun_some _).symm

/-- The work on a chunk is that on the blocks it reads. -/
theorem foldl_blockStep_eq (fi : FilterInfo) (bufferSize : Int) (fuel : Nat) (reused : Nat → Outcome)
    (outcomes : List Outcome) {s : FileState} {w : Result × List Result} (hWork : s.work = some w) :
    (outcomes.foldl (blockStep fi bufferSize fuel reused) s).work =
        run (workData fi bufferSize fuel) w (readsFrom reused s.calls outcomes) ∧
      ((outcomes.foldl (blockStep fi bufferSize fuel reused) s).work.isSome →
        (outcomes.foldl (blockStep fi bufferSize fuel reused) s).calls = callsAfter reused s.calls outcomes) := by
  induction outcomes generalizing s w with
  | nil => exact ⟨hWork, fun _ => (List.append_nil _).symm⟩
  | cons outcome outcomes ih =>
    have hReads : readsFrom reused s.calls (outcome :: outcomes) = (meets reused s.calls outcome).block.toList ++
        readsFrom reused (s.calls ++ (meets reused s.calls outcome).calls) outcomes := by
      rw [readsFrom, met]
      cases hBlock : (meets reused s.calls outcome).block with
      | none => rw [List.filterMap_cons_none hBlock]; rfl
      | some block => rw [List.filterMap_cons_some hBlock]; rfl
    rw [List.foldl_cons, blockStep_eq hWork, hReads, run_append]
    cases hFirst : run (workData fi bufferSize fuel) w (meets reused s.calls outcome).block.toList with
    | none =>
      rw [foldl_blockStep_of_none rfl]
      exact ⟨rfl, fun hSome => absurd hSome Bool.false_ne_true⟩
    | some next =>
      obtain ⟨hNext, hCalls⟩ := ih (s := ⟨_, some next⟩) rfl
      refine ⟨hNext, fun hSome => ?_⟩
      rw [hCalls hSome, callsAfter, callsAfter, met, List.flatMap_cons, List.append_assoc]

theorem foldl_chunkStep_eq {chunks : List (List Outcome)} {s : FileState} {w : Result × List Result}
    (hWork : s.work = some w) :
    (chunks.foldl (chunkStep fi bufferSize fuel reused) s).work =
      run (workBlocks fi bufferSize fuel) w (chunkReads reused s.calls chunks) := by
  induction chunks generalizing s w with
  | nil => exact hWork
  | cons outcomes chunks ih =>
    obtain ⟨hBlocks, hCalls⟩ := foldl_blockStep_eq fi bufferSize fuel reused outcomes hWork
    rw [List.foldl_cons, chunkReads, run_cons, workBlocks, ← hBlocks]
    cases hEnd : (outcomes.foldl (blockStep fi bufferSize fuel reused) s).work with
    | none =>
      have hStuck : (chunkStep fi bufferSize fuel reused s outcomes).work = none := by
        rw [chunkStep, hEnd, Option.map_none]
      rw [foldl_chunkStep_of_none hStuck]
      exact hStuck
    | some next =>
      rw [ih (chunkStep_work hEnd), chunkStep]
      simp only [hCalls (by rw [hEnd]; rfl)]
      rfl

theorem tmaxWorkingFile_results (fi : FilterInfo) (id bufferSize : Int) (fuel : Nat) (reused : Nat → Outcome)
    (garbage : Mem) (chunks : List (List Outcome)) :
    (tmaxWorkingFile fi bufferSize fuel reused id garbage chunks).2 =
      (run (workBlocks fi bufferSize fuel) (⟨id, garbage, 0, false, 0⟩, []) (chunkReads reused [] chunks)).map
        fun w => w.2 ++ [w.1] := by
  have hEnd : (chunks.foldl (chunkStep fi bufferSize fuel reused) ⟨[], some (⟨id, garbage, 0, false, 0⟩, [])⟩).work =
      run (workBlocks fi bufferSize fuel) (⟨id, garbage, 0, false, 0⟩, []) (chunkReads reused [] chunks) :=
    foldl_chunkStep_eq rfl
  rw [← hEnd, tmaxWorkingFile]
  split
  · rename_i hNone
    rw [hNone]
    rfl
  · rename_i w hSome
    rw [hSome]
    rfl

/-- Blocks from which the worker comes back are all worked on. -/
theorem exists_run_workData {w : Result × List Result} {blocks : List Block} (hWithin : Within bufferSize w)
    (hComes : ∀ block ∈ blocks, Comes fi bufferSize block)
    (hEnough : ∀ block ∈ blocks, Enough fi bufferSize fuel block) :
    ∃ w', run (workData fi bufferSize fuel) w blocks = some w' ∧ Within bufferSize w' := by
  induction blocks generalizing w with
  | nil => exact ⟨w, rfl, hWithin⟩
  | cons block blocks ih =>
    obtain ⟨hFirst, hRest⟩ := List.forall_mem_cons.mp hComes
    obtain ⟨hEnoughFirst, hEnoughRest⟩ := List.forall_mem_cons.mp hEnough
    obtain ⟨next, hNext⟩ := hEnoughFirst hFirst w hWithin
    rw [run_cons, hNext]
    exact ih (workData_within hWithin hNext) hRest hEnoughRest

theorem exists_run_workBlocks {w : Result × List Result} {chunks : List (List Block)} (hWithin : Within bufferSize w)
    (hComes : ∀ block ∈ chunks.flatten, Comes fi bufferSize block)
    (hEnough : ∀ block ∈ chunks.flatten, Enough fi bufferSize fuel block) :
    ∃ w', run (workBlocks fi bufferSize fuel) w chunks = some w' := by
  induction chunks generalizing w with
  | nil => exact ⟨w, rfl⟩
  | cons blocks chunks ih =>
    rw [List.flatten_cons] at hComes hEnough
    obtain ⟨hFirst, hRest⟩ := List.forall_mem_append.mp hComes
    obtain ⟨hEnoughFirst, hEnoughRest⟩ := List.forall_mem_append.mp hEnough
    obtain ⟨next, hNext, hWithin'⟩ := exists_run_workData hWithin hFirst hEnoughFirst
    rw [run_cons, workBlocks, hNext]
    exact ih (w := countChunk next) hWithin' hRest hEnoughRest

end Work

section Counted
variable {fi : FilterInfo} {bufferSize : Int} {fuel : Nat}

theorem counted_return (tResult : Result) (returned : List Result) (bufferSize : Int) :
    counted (initResult tResult bufferSize, returned ++ [tResult]) = counted (tResult, returned) := by
  simp [counted, initResult]

theorem flushLoop_counted {chunkList : ChunkList} {i : Nat} {tResult : Result} {returned : List Result}
    {s : Result × List Result} (h : flushLoop chunkList bufferSize fuel i tResult returned = some s) :
    counted s = counted (tResult, returned) := by
  induction fuel generalizing i tResult returned with
  | zero => cases h
  | succ fuel ih =>
    rw [flushLoop] at h
    obtain ⟨w, hCall, hNext⟩ := Option.bind_eq_some_iff.mp h
    change (if w.finished = true then _ else _) = some s at hNext
    split at hNext
    · obtain rfl := Option.some_inj.mp hNext
      rfl
    · rw [ih hNext, counted_return]
      rfl

theorem workData_counted {s s' : Result × List Result} {block : Block}
    (h : workData fi bufferSize fuel s block = some s') : counted s' = counted s + emptyBlocks [block] := by
  obtain ⟨filtered, hFilter, hWork⟩ := Option.bind_eq_some_iff.mp h
  rw [filterBlock] at hFilter
  split at hFilter
  · rename_i hEmpty
    obtain rfl := Option.some_inj.mp hFilter
    obtain rfl := Option.some_inj.mp hWork
    have hCount : emptyBlocks [block] = 1 := by simp [emptyBlocks, Block.hasRows, hEmpty]
    rw [hCount, counted, counted, Nat.add_assoc]
  · rename_i hRows
    obtain ⟨chunkList, -, rfl⟩ := Option.map_eq_some_iff.mp hFilter
    have hCount : emptyBlocks [block] = 0 := by simp [emptyBlocks, Block.hasRows, hRows]
    rw [hCount, flushLoop_counted hWork, Nat.add_zero]

theorem emptyBlocks_append (blocks blocks' : List Block) :
    emptyBlocks (blocks ++ blocks') = emptyBlocks blocks + emptyBlocks blocks' := List.countP_append

theorem run_workData_counted {s s' : Result × List Result} {blocks : List Block}
    (h : run (workData fi bufferSize fuel) s blocks = some s') :
    counted s' = counted s + emptyBlocks blocks ∧ ∀ block ∈ blocks, Comes fi bufferSize block := by
  induction blocks generalizing s with
  | nil =>
    obtain rfl := Option.some_inj.mp h
    exact ⟨rfl, List.forall_mem_nil _⟩
  | cons block blocks ih =>
    rw [run_cons] at h
    obtain ⟨t, hFirst, hRest⟩ := Option.bind_eq_some_iff.mp h
    obtain ⟨hCount, hComes⟩ := ih hRest
    refine ⟨?_, List.forall_mem_cons.mpr ⟨comes_of_workData hFirst, hComes⟩⟩
    rw [hCount, workData_counted hFirst, Nat.add_assoc]
    exact congrArg _ (emptyBlocks_append [block] blocks).symm

/-- A whole run counts its chunks and the empty blocks it reads. -/
theorem run_workBlocks_counted {s s' : Result × List Result} {chunks : List (List Block)}
    (h : run (workBlocks fi bufferSize fuel) s chunks = some s') :
    counted s' = counted s + chunks.length + emptyBlocks chunks.flatten ∧
      ∀ block ∈ chunks.flatten, Comes fi bufferSize block := by
  induction chunks generalizing s with
  | nil =>
    obtain rfl := Option.some_inj.mp h
    exact ⟨rfl, List.forall_mem_nil _⟩
  | cons blocks chunks ih =>
    rw [run_cons] at h
    obtain ⟨t, hFirst, hRest⟩ := Option.bind_eq_some_iff.mp h
    obtain ⟨before, hBlocks, rfl⟩ := Option.map_eq_some_iff.mp hFirst
    obtain ⟨hCount, hComes⟩ := run_workData_counted hBlocks
    obtain ⟨hRestCount, hRestComes⟩ := ih hRest
    have hChunk : counted (countChunk before) = counted before + 1 := rfl
    rw [List.flatten_cons]
    refine ⟨?_, List.forall_mem_append.mpr ⟨hComes, hRestComes⟩⟩
    rw [hRestCount, hChunk, hCount, List.length_cons, emptyBlocks_append]
    omega

theorem emptyBlocks_eq_zero {blocks : List Block} : emptyBlocks blocks = 0 ↔ ∀ block ∈ blocks, block.hasRows := by
  rw [emptyBlocks, List.countP_eq_zero]
  simp

end Counted

/-- A block without rows. -/
def emptyBlock : Block := ⟨zeroed, fun _ => zeroed, anyCtx⟩

section Snippet
variable {fi : FilterInfo} {id bufferSize : Int} {garbage : Mem} {chunks : List (List Outcome)}

theorem reads_of_countsChunks (h : CountsChunks fi id bufferSize garbage chunks) (reused : Nat → Outcome) :
    ∀ block ∈ readsFrom reused [] chunks.flatten, Comes fi bufferSize block ∧ block.hasRows := by
  obtain ⟨fuel, results, hResults, hCounts⟩ := h reused
  rw [tmaxWorkingFile_results] at hResults
  obtain ⟨w, hRun, rfl⟩ := Option.map_eq_some_iff.mp hResults
  obtain ⟨hCounted, hComes⟩ := run_workBlocks_counted hRun
  rw [flatten_chunkReads] at hCounted hComes
  have hSum : ((w.2 ++ [w.1]).map Result.chunkCount).sum = counted w := by simp [counted]
  have hNone : emptyBlocks (readsFrom reused [] chunks.flatten) = 0 := by
    rw [hSum, hCounted, length_chunkReads] at hCounts
    change 0 + chunks.length + _ = _ at hCounts
    omega
  exact fun block hBlock => ⟨hComes block hBlock, emptyBlocks_eq_zero.mp hNone block hBlock⟩

theorem readable_of_countsChunks (h : CountsChunks fi id bufferSize garbage chunks) :
    ∀ outcome ∈ chunks.flatten.dropLast, outcome.block.isSome := by
  intro failing hMem
  by_contra hFailed
  obtain ⟨before, between, hSplit⟩ := List.append_of_mem hMem
  have hSome : chunks.flatten ≠ [] := fun hNil => by simp [hNil] at hMem
  obtain ⟨next, after, hRest⟩ := List.exists_cons_of_ne_nil (List.append_ne_nil_of_right_ne_nil between
    (List.cons_ne_nil (chunks.flatten.getLast hSome) []))
  have hOutcomes : chunks.flatten = before ++ failing :: next :: after := by
    rw [← hRest, ← List.cons_append, ← List.append_assoc, ← hSplit, List.dropLast_append_getLast]
  -- where the descriptor has become that of a file with an empty block, this block is counted
  obtain ⟨k, hMet⟩ := exists_reused_mem_met (fun _ => .data emptyBlock) [] before next after
    (Option.not_isSome_iff_eq_none.mp hFailed)
  have hRead : emptyBlock ∈ readsFrom (fun _ => .data emptyBlock) [] chunks.flatten := by
    rw [hOutcomes]
    exact List.mem_filterMap.mpr ⟨_, hMet, rfl⟩
  exact absurd (reads_of_countsChunks h _ emptyBlock hRead).2 (by decide)

end Snippet

/-- The counts add up to the number of chunks exactly when no block but the last may fail to be read, the worker comes
back from every block, and none of them is empty. -/
theorem countsChunks_iff (fi : FilterInfo) (id bufferSize : Int) (garbage : Mem) (chunks : List (List Outcome))
    (hSmall : NoOverflow bufferSize) :
    CountsChunks fi id bufferSize garbage chunks ↔ (∀ outcome ∈ chunks.flatten.dropLast, outcome.block.isSome) ∧
      ∀ outcome ∈ chunks.flatten, ∀ block ∈ outcome.block, Comes fi bufferSize block ∧ block.hasRows := by
  have hMet : (∀ outcome ∈ chunks.flatten.dropLast, outcome.block.isSome) →
      ∀ reused, readsFrom reused [] chunks.flatten = chunks.flatten.filterMap Outcome.block := fun h reused =>
    congrArg _ (met_of_readable reused List.not_mem_nil h)
  constructor
  · intro hCounts
    have hReadable := readable_of_countsChunks hCounts
    refine ⟨hReadable, fun outcome hOutcome block hBlock => ?_⟩
    refine reads_of_countsChunks hCounts unused block ?_
    rw [hMet hReadable]
    exact List.mem_filterMap.mpr ⟨outcome, hOutcome, hBlock⟩
  · rintro ⟨hReadable, hBlocks⟩ reused
    have hReads : ∀ block ∈ (chunkReads reused [] chunks).flatten, Comes fi bufferSize block ∧ block.hasRows := by
      intro block hBlock
      rw [flatten_chunkReads, hMet hReadable] at hBlock
      obtain ⟨outcome, hOutcome, hIn⟩ := List.mem_filterMap.mp hBlock
      exact hBlocks outcome hOutcome block hIn
    obtain ⟨fuel, hFuel⟩ := exists_enough fi hSmall (chunkReads reused [] chunks).flatten
    obtain ⟨w, hRun⟩ := exists_run_workBlocks (w := (⟨id, garbage, 0, false, 0⟩, [])) (Nat.zero_le _)
      (fun block hBlock => (hReads block hBlock).1) (hFuel fuel le_rfl)
    obtain ⟨hCounted, -⟩ := run_workBlocks_counted hRun
    have hNone := emptyBlocks_eq_zero.mpr fun block hBlock => (hReads block hBlock).2
    have hSum : ((w.2 ++ [w.1]).map Result.chunkCount).sum = counted w := by simp [counted]
    refine ⟨fuel, w.2 ++ [w.1], by rw [tmaxWorkingFile_results, hRun]; rfl, ?_⟩
    rw [hSum, hCounted, hNone, length_chunkReads]
    exact Nat.zero_add _

theorem twoRowBlock_comes : Comes firstColumnFilter 65536 ⟨twoRowBlock, fun _ => zeroed, anyCtx⟩ := by
  refine ⟨some ⟨[⟨_, 3⟩], []⟩, rfl, fun chunkList hList => ?_⟩
  obtain rfl := Option.some_inj.mp hList
  exact ⟨Or.inr rfl, by simp [ChunkList.Sized, ChunkList.entries, resChunkSize], by simp [ChunkList.entries]⟩

theorem failing_last_block_counted :
    CountsChunks firstColumnFilter 7 65536 zeroed [[twoRows], [twoRows, .readFailed]] := by
  apply (countsChunks_iff firstColumnFilter 7 65536 zeroed [[twoRows], [twoRows, .readFailed]] (by decide)).mpr
  refine ⟨by simp [twoRows, Outcome.block], ?_⟩
  have hTwoRows : ∀ block ∈ twoRows.block, Comes firstColumnFilter 65536 block ∧ block.hasRows := by
    intro block hBlock
    obtain rfl := Option.some_inj.mp hBlock
    exact ⟨twoRowBlock_comes, by decide⟩
  refine List.forall_mem_cons.mpr ⟨hTwoRows, List.forall_mem_cons.mpr ⟨hTwoRows, List.forall_mem_singleton.mpr ?_⟩⟩
  intro block hBlock
  cases hBlock

/-- One chunk whose only block has no rows is counted twice. -/
theorem empty_block_counted_twice :
    ¬CountsChunks firstColumnFilter 7 65536 zeroed [[.data emptyBlock]] := by
  intro hCounts
  obtain ⟨fuel, results, hResults, hSum⟩ := hCounts unused
  have hTwice : (tmaxWorkingFile firstColumnFilter 65536 fuel unused 7 zeroed [[.data emptyBlock]]).2 =
      some [⟨7, zeroed, 0, false, 2⟩] := rfl
  obtain rfl := Option.some_inj.mp (hTwice.symm.trans hResults)
  exact absurd hSum (by decide)

end CsdWorker.Tmax
