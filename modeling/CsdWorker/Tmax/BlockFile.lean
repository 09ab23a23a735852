import CsdWorker.Lib.Run
import CsdWorker.Tmax.ResultFrames

/-! # Reading the blocks of a snippet

The part of `Worker::tmax_working` that deals with the block file. Each block is sought and read. If one of
the two fails, the file is closed and the loop goes on with the next block; behind the loop the file is
closed again. In the meantime another worker may have opened a file that has got the same descriptor.
-/

namespace CsdWorker.Tmax

open Memory Run

set_option autoImplicit false

/-- The calls on the file descriptor. -/
inductive Call where
  | lseek | read | close
  deriving DecidableEq, Repr

/-- A block that has been read, with what `malloc` finds for its chunks and for the context. -/
structure Block where
  blk : Mem
  heap : Nat → Mem
  ctx : ExpCtx

/-- What comes of seeking and reading a block. -/
inductive Outcome where
  | seekFailed
  | readFailed
  | data (block : Block)

def Outcome.block : Outcome → Option Block
  | .data block => some block
  | _ => none

def Outcome.calls : Outcome → List Call
  | .seekFailed => [.lseek, .close]
  | .readFailed => [.lseek, .read, .close]
  | .data _ => [.lseek, .read]

/-- `work` is missing when the worker does not come back from a block. -/
structure FileState where
  calls : List Call
  work : Option (Result × List Result)

section Model
variable (fi : FilterInfo) (bufferSize : Int) (fuel : Nat) (reused : Nat → Outcome)

/-- The chunk list of a block, if it has rows. -/
def filterBlock (block : Block) : Option (Option ChunkList) :=
  if rowcnt (dblkGetDl block.blk) = 0 then some none
  else (csdFilterAndEvalOut fi block.heap block.blk block.ctx createChunkList).map some

def workData (s : Result × List Result) (block : Block) : Option (Result × List Result) :=
  (filterBlock fi block).bind (workBlock bufferSize fuel s)

/-- What the worker meets after `calls`. Once the file has been closed it is what `reused` says: a failure, or a block
of whatever file has the descriptor by then. -/
def meets (calls : List Call) (outcome : Outcome) : Outcome := if .close ∈ calls then reused calls.length else outcome

def blockStep (s : FileState) (outcome : Outcome) : FileState :=
  match s.work with
  | none => s
  | some work =>
    let outcome := meets reused s.calls outcome
    ⟨s.calls ++ outcome.calls, outcome.block.elim (some work) (workData fi bufferSize fuel work)⟩

def chunkStep (s : FileState) (outcomes : List Outcome) : FileState :=
  let s := outcomes.foldl (blockStep fi bufferSize fuel reused) s
  { s with work := s.work.map countChunk }

/-- The calls of a snippet, and its results if the worker gets to the end. -/
def tmaxWorkingFile (id : Int) (garbage : Mem) (chunks : List (List Outcome)) : List Call × Option (List Result) :=
  let s := chunks.foldl (chunkStep fi bufferSize fuel reused) ⟨[], some (⟨id, garbage, 0, false, 0⟩, [])⟩
  match s.work with
  | none => (s.calls, none)
  | some work => (s.calls ++ [.close], some (work.2 ++ [work.1]))

end Model

def readable (chunks : List (List Outcome)) : List (List Block) := chunks.map (List.filterMap Outcome.block)

def filterBlocks (fi : FilterInfo) (chunks : List (List Block)) : Option (List (List (Option ChunkList))) :=
  chunks.mapM fun blocks => blocks.mapM (filterBlock fi)

/-- The descriptor is not used after it has been closed, and the results are those of the blocks that could
be read, whatever other workers do. -/
structure Robust (fi : FilterInfo) (id bufferSize : Int) (garbage : Mem) (chunks : List (List Outcome)) : Prop where
  calls : ∀ fuel reused, .close ∉ (tmaxWorkingFile fi bufferSize fuel reused id garbage chunks).1.dropLast
  results : ∀ fuel reused, (tmaxWorkingFile fi bufferSize fuel reused id garbage chunks).2 =
    (filterBlocks fi (readable chunks)).bind (tmaxWorking id bufferSize garbage fuel)

section Hangs
variable {fi : FilterInfo} {bufferSize : Int}

/-- The filter gives a chunk list, if the block has rows, and the list can be flushed. -/
def Comes (fi : FilterInfo) (bufferSize : Int) (block : Block) : Prop :=
  ∃ filtered, filterBlock fi block = some filtered ∧ ∀ chunkList ∈ filtered, Flushable chunkList bufferSize

/-- A failing block comes only after one from which the worker does not come back. -/
def Unreached (fi : FilterInfo) (bufferSize : Int) (outcomes : List Outcome) : Prop :=
  ∀ before outcome after, outcomes = before ++ outcome :: after → outcome.block = none →
    ∃ earlier ∈ before, ∃ block ∈ earlier.block, ¬Comes fi bufferSize block

theorem comes_of_workData {fuel : Nat} {s s' : Result × List Result} {block : Block}
    (h : workData fi bufferSize fuel s block = some s') : Comes fi bufferSize block := by
  obtain ⟨filtered, hFilter, hWork⟩ := Option.bind_eq_some_iff.mp h
  refine ⟨filtered, hFilter, fun chunkList hList => ?_⟩
  obtain rfl := Option.mem_def.mp hList
  exact flushable_of_fitsAt fun j hj => fitsAt_of_flushLoop hWork j (Nat.zero_le j) hj

/-- The result in work is not longer than the buffer. -/
def Within (bufferSize : Int) (s : Result × List Result) : Prop := s.1.length ≤ bufferSize.toNat

theorem workData_within {fuel : Nat} {s s' : Result × List Result} {block : Block} (hWithin : Within bufferSize s)
    (h : workData fi bufferSize fuel s block = some s') : Within bufferSize s' := by
  obtain ⟨filtered, -, hWork⟩ := Option.bind_eq_some_iff.mp h
  cases filtered with
  | none =>
    obtain rfl := Option.some_inj.mp hWork
    exact hWithin
  | some chunkList => exact flushLoop_length_le hWithin hWork

/-- With this number of calls the worker comes back from the block, if it comes back at all. -/
def Enough (fi : FilterInfo) (bufferSize : Int) (fuel : Nat) (block : Block) : Prop :=
  Comes fi bufferSize block → ∀ s, Within bufferSize s → ∃ s', workData fi bufferSize fuel s block = some s'

theorem exists_enough_block (fi : FilterInfo) (hSmall : NoOverflow bufferSize) (block : Block) :
    ∃ enough, ∀ fuel, enough ≤ fuel → Enough fi bufferSize fuel block := by
  cases hFilter : filterBlock fi block with
  | none =>
    refine ⟨0, fun fuel _ hComes => ?_⟩
    obtain ⟨filtered, hFiltered, -⟩ := hComes
    rw [hFilter] at hFiltered
    cases hFiltered
  | some filtered =>
    cases filtered with
    | none => exact ⟨0, fun fuel _ _ s _ => ⟨_, by rw [workData, hFilter]; rfl⟩⟩
    | some chunkList =>
      refine ⟨chunkList.entries.length + 2, fun fuel hFuel hComes s hWithin => ?_⟩
      obtain ⟨filtered, hFiltered, hFlushable⟩ := hComes
      obtain rfl := Option.some_inj.mp (hFilter.symm.trans hFiltered)
      rw [workData, hFilter]
      exact flushLoop_ends (hFlushable chunkList rfl) hFuel (hSmall.max_length hWithin) s.2

theorem exists_enough (fi : FilterInfo) (hSmall : NoOverflow bufferSize) (blocks : List Block) :
    ∃ enough, ∀ fuel, enough ≤ fuel → ∀ block ∈ blocks, Enough fi bufferSize fuel block := by
  induction blocks with
  | nil => exact ⟨0, fun _ _ => List.forall_mem_nil _⟩
  | cons block blocks ih =>
    obtain ⟨first, hFirst⟩ := exists_enough_block fi hSmall block
    obtain ⟨rest, hRest⟩ := ih
    refine ⟨max first rest, fun fuel hFuel => List.forall_mem_cons.mpr ⟨?_, ?_⟩⟩
    · exact hFirst fuel (le_of_max_le_left hFuel)
    · exact hRest fuel (le_of_max_le_right hFuel)

end Hangs

section Unreached
variable {fi : FilterInfo} {bufferSize : Int} {fuel : Nat} {reused : Nat → Outcome}

theorem unreached_nil : Unreached fi bufferSize [] := fun before outcome after h => by simp at h

theorem Unreached.block {outcome : Outcome} {outcomes : List Outcome}
    (h : Unreached fi bufferSize (outcome :: outcomes)) :
    ∃ block, outcome = .data block := by
  cases outcome with
  | data block => exact ⟨block, rfl⟩
  | seekFailed =>
    obtain ⟨_, hMem, _⟩ := h [] _ outcomes rfl rfl
    cases hMem
  | readFailed =>
    obtain ⟨_, hMem, _⟩ := h [] _ outcomes rfl rfl
    cases hMem

theorem Unreached.tail {block : Block} {outcomes : List Outcome} (h : Unreached fi bufferSize (.data block :: outcomes))
    (hComes : Comes fi bufferSize block) : Unreached fi bufferSize outcomes := by
  intro before outcome after hSplit hFailed
  obtain ⟨earlier, hMem, other, hOther, hNot⟩ := h (.data block :: before) outcome after (by rw [hSplit]; rfl) hFailed
  rcases List.mem_cons.mp hMem with rfl | hMem
  · obtain rfl := Option.some_inj.mp hOther
    exact absurd hComes hNot
  · exact ⟨earlier, hMem, other, hOther, hNot⟩

theorem foldl_blockStep_of_none {s : FileState} (h : s.work = none) (outcomes : List Outcome) :
    outcomes.foldl (blockStep fi bufferSize fuel reused) s = s := by
  induction outcomes with
  | nil => rfl
  | cons outcome outcomes ih => rw [List.foldl_cons, blockStep, h]; exact ih

theorem chunkStep_of_none {s : FileState} (h : s.work = none) (outcomes : List Outcome) :
    chunkStep fi bufferSize fuel reused s outcomes = s := by
  obtain ⟨calls, work⟩ := s
  obtain rfl : work = none := h
  rw [chunkStep, foldl_blockStep_of_none rfl]
  rfl

theorem foldl_chunkStep_of_none {s : FileState} (h : s.work = none) (chunks : List (List Outcome)) :
    chunks.foldl (chunkStep fi bufferSize fuel reused) s = s := by
  induction chunks with
  | nil => rfl
  | cons outcomes chunks ih => rw [List.foldl_cons, chunkStep_of_none h, ih]

theorem chunkStep_work {s : FileState} {outcomes : List Outcome} {work : Result × List Result}
    (h : (outcomes.foldl (blockStep fi bufferSize fuel reused) s).work = some work) :
    (chunkStep fi bufferSize fuel reused s outcomes).work = some (countChunk work) := by
  rw [chunkStep, h, Option.map_some]

/-- As long as no failing block is reached the file stays open, and the work is that on the blocks alone. -/
theorem foldl_blockStep_unreached (fuel : Nat) (reused : Nat → Outcome) (outcomes rest : List Outcome) {s : FileState}
    {w : Result × List Result} (hWork : s.work = some w) (hOpen : .close ∉ s.calls)
    (h : Unreached fi bufferSize (outcomes ++ rest)) :
    .close ∉ (outcomes.foldl (blockStep fi bufferSize fuel reused) s).calls ∧
      (outcomes.foldl (blockStep fi bufferSize fuel reused) s).work =
        run (workData fi bufferSize fuel) w (outcomes.filterMap Outcome.block) ∧
      ((outcomes.foldl (blockStep fi bufferSize fuel reused) s).work = none ∨ Unreached fi bufferSize rest) := by
  induction outcomes generalizing s w with
  | nil => exact ⟨hOpen, hWork, Or.inr h⟩
  | cons outcome outcomes ih =>
    obtain ⟨block, rfl⟩ := h.block
    have hStep : blockStep fi bufferSize fuel reused s (.data block) =
        ⟨s.calls ++ [.lseek, .read], workData fi bufferSize fuel w block⟩ := by
      rw [blockStep, hWork]
      simp only [meets, if_neg hOpen]
      rfl
    have hCalls : Call.close ∉ s.calls ++ [.lseek, .read] := by simp [hOpen]
    have hFilter :
      (Outcome.data block :: outcomes).filterMap Outcome.block = block :: outcomes.filterMap Outcome.block := rfl
    rw [List.foldl_cons, hStep, hFilter, run_cons]
    cases hBlock : workData fi bufferSize fuel w block with
    | none =>
      rw [foldl_blockStep_of_none rfl]
      exact ⟨hCalls, rfl, Or.inl rfl⟩
    | some w' => exact ih rfl hCalls (h.tail (comes_of_workData hBlock))

/-- The work on a chunk whose blocks can be read. -/
def workBlocks (fi : FilterInfo) (bufferSize : Int) (fuel : Nat) (s : Result × List Result) (blocks : List Block) :
    Option (Result × List Result) :=
  (run (workData fi bufferSize fuel) s blocks).map countChunk

theorem foldl_chunkStep_unreached (fuel : Nat) (reused : Nat → Outcome) (chunks : List (List Outcome)) {s : FileState}
    {w : Result × List Result} (hWork : s.work = some w) (hOpen : .close ∉ s.calls)
    (h : Unreached fi bufferSize chunks.flatten) :
    .close ∉ (chunks.foldl (chunkStep fi bufferSize fuel reused) s).calls ∧
      (chunks.foldl (chunkStep fi bufferSize fuel reused) s).work =
        run (workBlocks fi bufferSize fuel) w (readable chunks) := by
  induction chunks generalizing s w with
  | nil => exact ⟨hOpen, hWork⟩
  | cons outcomes chunks ih =>
    obtain ⟨hCalls, hBlocks, hRest⟩ := foldl_blockStep_unreached fuel reused outcomes chunks.flatten hWork hOpen h
    rw [List.foldl_cons, readable, List.map_cons, run_cons, workBlocks, ← hBlocks]
    cases hEnd : (outcomes.foldl (blockStep fi bufferSize fuel reused) s).work with
    | none =>
      have hStuck : (chunkStep fi bufferSize fuel reused s outcomes).work = none := by
        rw [chunkStep, hEnd, Option.map_none]
      rw [foldl_chunkStep_of_none hStuck]
      exact ⟨hCalls, hStuck⟩
    | some w' =>
      exact ih (chunkStep_work hEnd) hCalls (hRest.resolve_left (by rw [hEnd]; exact Option.some_ne_none w'))

theorem workChunk_eq (s : Result × List Result) (blocks : List Block) :
    (blocks.mapM (filterBlock fi)).bind (workChunk bufferSize fuel s) = workBlocks fi bufferSize fuel s blocks := by
  have hRun := run_mapM (workBlock bufferSize fuel) (filterBlock fi) s blocks
  change _ = (run (fun s block => (filterBlock fi block).bind (workBlock bufferSize fuel s)) s blocks).map countChunk
  rw [← hRun]
  cases blocks.mapM (filterBlock fi) with
  | none => rfl
  | some lists =>
    change (run (workBlock bufferSize fuel) s lists).bind _ = (run (workBlock bufferSize fuel) s lists).map countChunk
    cases run (workBlock bufferSize fuel) s lists with
    | none => rfl
    | some s' => rfl

theorem tmaxWorking_filterBlocks (id : Int) (garbage : Mem) (chunks : List (List Block)) :
    (filterBlocks fi chunks).bind (tmaxWorking id bufferSize garbage fuel) =
      (run (workBlocks fi bufferSize fuel) (⟨id, garbage, 0, false, 0⟩, []) chunks).map fun s => s.2 ++ [s.1] := by
  have hRun := run_mapM (workChunk bufferSize fuel) (fun blocks => blocks.mapM (filterBlock fi))
    (⟨id, garbage, 0, false, 0⟩, []) chunks
  have hStep : (fun s (blocks : List Block) => (blocks.mapM (filterBlock fi)).bind (workChunk bufferSize fuel s)) =
      workBlocks fi bufferSize fuel := by
    funext s blocks
    exact workChunk_eq s blocks
  rw [hStep] at hRun
  rw [← hRun, filterBlocks]
  cases chunks.mapM fun blocks => blocks.mapM (filterBlock fi) with
  | none => rfl
  | some lists =>
    change (run (workChunk bufferSize fuel) _ lists).bind _ = (run (workChunk bufferSize fuel) _ lists).map _
    cases run (workChunk bufferSize fuel) _ lists with
    | none => rfl
    | some s => rfl

theorem robust_of_unreached (id : Int) (garbage : Mem) {chunks : List (List Outcome)}
    (h : Unreached fi bufferSize chunks.flatten) : Robust fi id bufferSize garbage chunks := by
  have hRun := fun fuel reused => foldl_chunkStep_unreached fuel reused chunks
    (s := ⟨[], some (⟨id, garbage, 0, false, 0⟩, [])⟩) rfl List.not_mem_nil h
  constructor
  · intro fuel reused
    have hCalls := (hRun fuel reused).1
    rw [tmaxWorkingFile]
    split
    · exact fun hIn => hCalls (List.mem_of_mem_dropLast hIn)
    · rwa [List.dropLast_concat]
  · intro fuel reused
    rw [tmaxWorking_filterBlocks, ← (hRun fuel reused).2, tmaxWorkingFile]
    split
    · rename_i hNone
      rw [hNone]
      rfl
    · rename_i work hSome
      rw [hSome]
      rfl

end Unreached

section Reached
variable {fi : FilterInfo} {bufferSize : Int} {fuel : Nat}

/-- No other worker opens a file. -/
def unused : Nat → Outcome := fun _ => .seekFailed

/-- The worker comes back from blocks that let it, and has closed the file if it has met a failing one. -/
structure Passed (fi : FilterInfo) (bufferSize : Int) (seen : List Outcome) (s : FileState) : Prop where
  within : ∀ w ∈ s.work, Within bufferSize w
  live : (∀ outcome ∈ seen, ∀ block ∈ outcome.block, Comes fi bufferSize block) → s.work.isSome
  closed : ¬Unreached fi bufferSize seen → s.work.isSome ∧ .close ∈ s.calls

theorem Unreached.concat {seen : List Outcome} {outcome : Outcome} (h : Unreached fi bufferSize seen)
    (hLast : outcome.block = none → ∃ earlier ∈ seen, ∃ block ∈ earlier.block, ¬Comes fi bufferSize block) :
    Unreached fi bufferSize (seen ++ [outcome]) := by
  intro before failing after hSplit hFailed
  rcases List.eq_nil_or_concat' after with rfl | ⟨after, last, rfl⟩
  · obtain ⟨rfl, hEq⟩ := List.append_inj' hSplit rfl
    obtain rfl : outcome = failing := by simpa using hEq
    exact hLast hFailed
  · rw [← List.cons_append, ← List.append_assoc] at hSplit
    exact h before failing after (List.append_inj' hSplit rfl).1 hFailed

theorem close_mem_calls {outcome : Outcome} (h : outcome.block = none) : .close ∈ outcome.calls := by
  cases outcome with
  | seekFailed => decide
  | readFailed => decide
  | data block => cases h

theorem blockStep_of_failed {reused : Nat → Outcome} {s : FileState} (hLive : s.work.isSome) {outcome : Outcome}
    (hFailed : (meets reused s.calls outcome).block = none) :
    (blockStep fi bufferSize fuel reused s outcome).work.isSome ∧
      .close ∈ (blockStep fi bufferSize fuel reused s outcome).calls := by
  obtain ⟨w, hWork⟩ := Option.isSome_iff_exists.mp hLive
  rw [blockStep, hWork]
  simp only [hFailed]
  exact ⟨rfl, List.mem_append_right _ (close_mem_calls hFailed)⟩

theorem meets_unused {calls : List Call} {outcome : Outcome} (h : .close ∈ calls ∨ outcome.block = none) :
    (meets unused calls outcome).block = none := by
  rw [meets]
  split
  · rfl
  · rename_i hOpen
    exact h.resolve_left hOpen

theorem blockStep_within {reused : Nat → Outcome} {s : FileState} (hWithin : ∀ w ∈ s.work, Within bufferSize w)
    (outcome : Outcome) : ∀ w ∈ (blockStep fi bufferSize fuel reused s outcome).work, Within bufferSize w := by
  rw [blockStep]
  split
  · exact hWithin
  · rename_i w hWork
    intro w' hNext
    change (meets reused s.calls outcome).block.elim (some w) (workData fi bufferSize fuel w) = some w' at hNext
    cases hBlock : (meets reused s.calls outcome).block with
    | none =>
      rw [hBlock] at hNext
      obtain rfl := Option.some_inj.mp hNext
      exact hWithin w hWork
    | some block =>
      rw [hBlock] at hNext
      exact workData_within (hWithin w hWork) hNext

theorem blockStep_live {s : FileState} (hLive : s.work.isSome) (hWithin : ∀ w ∈ s.work, Within bufferSize w)
    {outcome : Outcome} (hEnough : ∀ block ∈ outcome.block, Enough fi bufferSize fuel block)
    (hComes : ∀ block ∈ outcome.block, Comes fi bufferSize block) :
    (blockStep fi bufferSize fuel unused s outcome).work.isSome := by
  by_cases hFailed : .close ∈ s.calls ∨ outcome.block = none
  · exact (blockStep_of_failed hLive (meets_unused hFailed)).1
  · obtain ⟨hOpen, hSome⟩ := not_or.mp hFailed
    obtain ⟨block, hBlock⟩ := Option.ne_none_iff_exists'.mp hSome
    obtain ⟨w, hWork⟩ := Option.isSome_iff_exists.mp hLive
    obtain ⟨w', hNext⟩ := hEnough block hBlock (hComes block hBlock) w (hWithin w hWork)
    rw [blockStep, hWork]
    simp only [meets, if_neg hOpen, hBlock, Option.elim_some, hNext, Option.isSome_some]

theorem Passed.blockStep {seen : List Outcome} {s : FileState} (h : Passed fi bufferSize seen s) {outcome : Outcome}
    (hEnough : ∀ block ∈ outcome.block, Enough fi bufferSize fuel block) :
    Passed fi bufferSize (seen ++ [outcome]) (blockStep fi bufferSize fuel unused s outcome) := by
  refine ⟨blockStep_within h.within outcome, ?_, ?_⟩
  · intro hAll
    obtain ⟨hSeen, hLast⟩ := List.forall_mem_append.mp hAll
    exact blockStep_live (h.live hSeen) h.within hEnough (hLast outcome List.mem_cons_self)
  · intro hReached
    by_cases hBefore : Unreached fi bufferSize seen
    · -- the block itself is the first failing one that is reached
      have hFailed : ¬(outcome.block = none → ∃ earlier ∈ seen, ∃ block ∈ earlier.block, ¬Comes fi bufferSize block) :=
        fun hLast => hReached (hBefore.concat hLast)
      push Not at hFailed
      exact blockStep_of_failed (h.live hFailed.2) (meets_unused (Or.inr hFailed.1))
    · obtain ⟨hLive, hClosed⟩ := h.closed hBefore
      exact blockStep_of_failed hLive (meets_unused (Or.inl hClosed))

theorem Passed.chunkStep {seen outcomes : List Outcome} {s : FileState} (h : Passed fi bufferSize seen s)
    (hEnough : ∀ outcome ∈ outcomes, ∀ block ∈ outcome.block, Enough fi bufferSize fuel block) :
    Passed fi bufferSize (seen ++ outcomes) (chunkStep fi bufferSize fuel unused s outcomes) := by
  have hBlocks :
    Passed fi bufferSize (seen ++ outcomes) (outcomes.foldl (Tmax.blockStep fi bufferSize fuel unused) s) := by
    induction outcomes generalizing seen s with
    | nil => rwa [List.append_nil]
    | cons outcome outcomes ih =>
      obtain ⟨hFirst, hRest⟩ := List.forall_mem_cons.mp hEnough
      have hNext := ih (h.blockStep hFirst) hRest
      rwa [List.append_assoc, List.singleton_append] at hNext
  refine ⟨?_, ?_, ?_⟩
  · intro w hWork
    obtain ⟨before, hBefore, rfl⟩ := Option.map_eq_some_iff.mp hWork
    exact hBlocks.within before hBefore
  · intro hAll
    rw [Tmax.chunkStep, Option.isSome_map]
    exact hBlocks.live hAll
  · intro hReached
    obtain ⟨hLive, hClosed⟩ := hBlocks.closed hReached
    exact ⟨by rw [Tmax.chunkStep, Option.isSome_map]; exact hLive, hClosed⟩

theorem Passed.chunks {seen : List Outcome} {chunks : List (List Outcome)} {s : FileState}
    (h : Passed fi bufferSize seen s)
    (hEnough : ∀ outcome ∈ chunks.flatten, ∀ block ∈ outcome.block, Enough fi bufferSize fuel block) :
    Passed fi bufferSize (seen ++ chunks.flatten) (chunks.foldl (Tmax.chunkStep fi bufferSize fuel unused) s) := by
  induction chunks generalizing seen s with
  | nil => rwa [List.flatten_nil, List.append_nil]
  | cons outcomes chunks ih =>
    rw [List.flatten_cons] at hEnough
    obtain ⟨hFirst, hRest⟩ := List.forall_mem_append.mp hEnough
    have hNext := ih (h.chunkStep hFirst) hRest
    rwa [List.append_assoc] at hNext

theorem unreached_of_robust (hSmall : NoOverflow bufferSize) {id : Int} {garbage : Mem} {chunks : List (List Outcome)}
    (h : Robust fi id bufferSize garbage chunks) : Unreached fi bufferSize chunks.flatten := by
  by_contra hReached
  obtain ⟨fuel, hFuel⟩ := exists_enough fi hSmall (chunks.flatten.filterMap Outcome.block)
  have hEnough : ∀ outcome ∈ chunks.flatten, ∀ block ∈ outcome.block, Enough fi bufferSize fuel block :=
    fun outcome hOutcome block hBlock => hFuel fuel le_rfl block (List.mem_filterMap.mpr ⟨outcome, hOutcome, hBlock⟩)
  have hStart : Passed fi bufferSize [] ⟨[], some (⟨id, garbage, 0, false, 0⟩, [])⟩ := by
    refine ⟨?_, fun _ => rfl, fun hNot => absurd unreached_nil hNot⟩
    intro w hWork
    obtain rfl := Option.some_inj.mp hWork
    exact Nat.zero_le _
  have hEnd := hStart.chunks hEnough
  rw [List.nil_append] at hEnd
  obtain ⟨hLive, hClosed⟩ := hEnd.closed hReached
  obtain ⟨w, hWork⟩ := Option.isSome_iff_exists.mp hLive
  apply h.calls fuel unused
  rw [tmaxWorkingFile]
  simp only [hWork, List.dropLast_concat]
  exact hClosed

end Reached

/-- The worker deals with the file as it should exactly when it gets to no block that cannot be sought or
read. -/
theorem robust_iff_unreached (fi : FilterInfo) (id bufferSize : Int) (garbage : Mem) (chunks : List (List Outcome))
    (hSmall : NoOverflow bufferSize) :
    Robust fi id bufferSize garbage chunks ↔ Unreached fi bufferSize chunks.flatten :=
  ⟨unreached_of_robust hSmall, robust_of_unreached id garbage⟩

def twoRows : Outcome := .data ⟨twoRowBlock, fun _ => zeroed, anyCtx⟩

theorem readable_blocks_robust : Robust firstColumnFilter 7 65536 zeroed [[twoRows, twoRows]] := by
  apply (robust_iff_unreached firstColumnFilter 7 65536 zeroed [[twoRows, twoRows]] (by decide)).mpr
  intro before outcome after hSplit hFailed
  have hMem : outcome ∈ [twoRows, twoRows] := by
    change [twoRows, twoRows] = _ at hSplit
    rw [hSplit]
    exact List.mem_append_right _ List.mem_cons_self
  rcases List.mem_pair.mp hMem with rfl | rfl
  · cases hFailed
  · cases hFailed

/-- The first block cannot be read. The file is closed, sought once more and closed two more times, and the
second block is lost. -/
theorem failed_read_closes_file : ¬Robust firstColumnFilter 7 65536 zeroed [[.readFailed, twoRows]] := by
  intro hRobust
  have hCalls : (tmaxWorkingFile firstColumnFilter 65536 0 unused 7 zeroed [[.readFailed, twoRows]]).1 =
      [.lseek, .read, .close, .lseek, .close, .close] := by decide
  have hNot := hRobust.calls 0 unused
  rw [hCalls] at hNot
  exact hNot (by decide)

end CsdWorker.Tmax
