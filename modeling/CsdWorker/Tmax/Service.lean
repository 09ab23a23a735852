import CsdWorker.Lib.Forward
import CsdWorker.Lib.Workers
import CsdWorker.ReturnWorker
import CsdWorker.SnippetDocument
import CsdWorker.Tmax.Base64
import CsdWorker.Tmax.FilterLayout
import CsdWorker.Tmax.ChunkCount

/-! # The TMAX workers between their two queues

Several threads run `Worker::tmax_working` on one queue of snippets and fill one queue of results, which
`Worker::tmax_return` sends, one connection for each. The results of each snippet are the frames of its chunks.
-/

namespace CsdWorker.Tmax.Service

open Memory Endian Json Run Forward
open Input (TSnippet)
open Return (Calls Connection exchange headerText intField wire)

set_option autoImplicit false

/-- The block files by their paths, if they can be opened, what a descriptor leads to once it has been closed and
another worker has got its number, and what allocated memory holds before it is written. -/
structure Environment where
  files : Bytes → Option (BlockRead → Outcome)
  reused : TSnippet → Nat → Outcome
  filterHeap : Mem
  resultHeap : Mem
  fuel : Nat

section Turn
variable (env : Environment) (t : TSnippet)

def blockDir : Bytes := ascii "/home/ngd/storage/new_tmax/"

def path : Bytes := blockDir ++ t.fileName

def filterOf : Option FilterInfo := do
  let decoded ← base64Decode t.filterInfo
  let (filterInfo, _) ← deserializeFilterInfo (Memory.write env.filterHeap 0 decoded) 0
  pure filterInfo

/-- What one turn of the loop of `tmax_working` enqueues. A snippet whose file cannot be opened is passed over. -/
def tmaxWorkingTurn : Option (List Result) :=
  match env.files (path t) with
  | none => some []
  | some file => do
    let filterInfo ← filterOf env t
    let (_, results) ← tmaxWorkingSnippet filterInfo t.id t.blockSize t.bufferSize env.fuel (env.reused t)
      env.resultHeap file t.chunks
    results

end Turn

structure State (n : Nat) where
  workers : Workers.State (Fin n) TSnippet Result
  sent : List Connection

inductive Action (n : Nat) where
  | work (a : Workers.Action (Fin n) TSnippet)
  | answer (calls : Calls)

def initial (n : Nat) : State n := ⟨Workers.initial, []⟩

def resultTree (result : Result) : Tree :=
  .obj [
    (ascii "id", intField result.id),
    (ascii "length", intField result.length),
    (ascii "chunk_count", intField result.chunkCount)]

def sendResult (write : Tree → Bytes) (result : Result) (calls : Calls) : Connection :=
  exchange (headerText write (resultTree result)) result.length result.content calls

section Steps
variable {n : Nat} (env : Environment) (write : Tree → Bytes) (σ : State n)

/-- The results before the first that is not sent have left the queue. -/
def tmaxReturn (calls : Calls) : Option (State n) := do
  let result ← σ.workers.out[σ.sent.length]?
  pure { σ with sent := σ.sent ++ [sendResult write result calls] }

def step : Action n → Option (State n)
  | .work a => (Workers.step (tmaxWorkingTurn env) σ.workers a).map fun workers => { σ with workers }
  | .answer calls => tmaxReturn write σ calls

/-- No thread can move. -/
def Still : Prop :=
  (∀ worker, Workers.workerStep (tmaxWorkingTurn env) σ.workers worker = none) ∧
    ∀ calls, tmaxReturn write σ calls = none

end Steps

section Signed
variable {id : Int} {bufferSize : Int} {fuel : Nat} {filterInfo : FilterInfo} {s s' : Result × List Result}

/-- The results are those of a snippet. -/
def Signed (id : Int) (s : Result × List Result) : Prop := s.1.id = id ∧ ∀ result ∈ s.2, result.id = id

theorem flushLoop_signed {chunkList : ChunkList} {i : Nat} (hSigned : Signed id s)
    (h : flushLoop chunkList bufferSize fuel i s.1 s.2 = some s') : Signed id s' := by
  induction fuel generalizing i s with
  | zero => cases h
  | succ fuel ih =>
    obtain ⟨hCurrent, hReturned⟩ := hSigned
    obtain ⟨written, -, hBody⟩ := Option.bind_eq_some_iff.mp h
    split at hBody
    · obtain rfl := Option.some_inj.mp hBody
      exact ⟨hCurrent, hReturned⟩
    · let filled : Result := { s.1 with data := written.bigChunk, length := written.totalLen }
      have hNext : Signed id (initResult filled bufferSize, s.2 ++ [filled]) :=
        ⟨hCurrent, List.forall_mem_append.mpr ⟨hReturned, List.forall_mem_singleton.mpr hCurrent⟩⟩
      exact ih hNext hBody

theorem workData_signed {block : Block} (hSigned : Signed id s)
    (h : workData filterInfo bufferSize fuel s block = some s') : Signed id s' := by
  obtain ⟨filtered, -, hWork⟩ := Option.bind_eq_some_iff.mp h
  cases filtered with
  | none =>
    obtain rfl := Option.some_inj.mp hWork
    exact hSigned
  | some chunkList => exact flushLoop_signed hSigned hWork

theorem workBlocks_signed {blocks : List Block} (hSigned : Signed id s)
    (h : workBlocks filterInfo bufferSize fuel s blocks = some s') : Signed id s' := by
  obtain ⟨before, hBefore, rfl⟩ := Option.map_eq_some_iff.mp h
  have hLast : Signed id before :=
    run_preserves (fun _ _ _ hs hStep => workData_signed hs hStep) hSigned hBefore
  exact ⟨hLast.1, hLast.2⟩

theorem tmaxWorkingTurn_signed {env : Environment} {t : TSnippet} {results : List Result}
    (h : tmaxWorkingTurn env t = some results) : ∀ result ∈ results, result.id = t.id := by
  rw [tmaxWorkingTurn] at h
  split at h
  · obtain rfl := Option.some_inj.mp h
    simp
  · obtain ⟨filterInfo, -, hBody⟩ := Option.bind_eq_some_iff.mp h
    obtain ⟨⟨calls, made⟩, hSnippet, hMade⟩ := Option.bind_eq_some_iff.mp hBody
    obtain ⟨outcomes, -, hFile⟩ := Option.map_eq_some_iff.mp hSnippet
    have hResults :=
      tmaxWorkingFile_results filterInfo t.id t.bufferSize env.fuel (env.reused t) env.resultHeap outcomes
    rw [hFile] at hResults
    obtain ⟨last, hLast, rfl⟩ := Option.map_eq_some_iff.mp (hResults.symm.trans hMade)
    obtain ⟨hCurrent, hReturned⟩ := run_preserves (I := Signed t.id) (fun _ _ _ hs hStep => workBlocks_signed hs hStep)
      ⟨rfl, by simp⟩ hLast
    exact List.forall_mem_append.mpr ⟨hReturned, List.forall_mem_singleton.mpr hCurrent⟩

end Signed

section Serves
variable {env : Environment} {t : TSnippet}

/-- The worker gets to the end of a snippet whose file can be opened: the filter can be read, no number is too large for
its type, all blocks can be read and filtered, and the frames fit. -/
structure Workable (env : Environment) (t : TSnippet) (size : Nat) (file : BlockRead → Outcome)
    (filterInfo : FilterInfo) (lists : List (List (Option ChunkList))) : Prop where
  opened : env.files (path t) = some file
  filter : filterOf env t = some filterInfo
  blockSize : t.blockSize = size
  size_pos : 0 < size
  size_lt : size < 2 ^ 31
  bufferSize_nonneg : 0 ≤ t.bufferSize
  bufferSize_small : NoOverflow t.bufferSize
  addressable : ∀ chunk ∈ t.chunks, Addressable chunk size
  read : ∀ chunk ∈ t.chunks, ∀ request ∈ blocksOf chunk size, ∃ block, file request = .data block
  filtered : filterBlocks filterInfo (readable (t.chunks.map fun chunk => (blocksOf chunk size).map file)) = some lists
  blocks : ∀ blocks ∈ lists, ∀ block ∈ blocks, Tmax.Workable t.bufferSize env.fuel block

/-- The frames that a snippet stands for, or that its file cannot be opened. -/
inductive Serves (env : Environment) (t : TSnippet) : Option (List Bytes) → Prop where
  | unopened (h : env.files (path t) = none) : Serves env t none
  | opened {size : Nat} {file : BlockRead → Outcome} {filterInfo : FilterInfo} {lists : List (List (Option ChunkList))}
      (h : Workable env t size file filterInfo lists) : Serves env t (some (snippetFrames lists))

section Workable
variable {size : Nat} {file : BlockRead → Outcome} {filterInfo : FilterInfo} {lists : List (List (Option ChunkList))}

theorem Workable.unreached (h : Workable env t size file filterInfo lists) :
    Unreached filterInfo t.bufferSize (t.chunks.map fun chunk => (blocksOf chunk size).map file).flatten := by
  intro before outcome after hSplit hFailed
  have hMem : outcome ∈ (t.chunks.map fun chunk => (blocksOf chunk size).map file).flatten := by
    rw [hSplit]
    exact List.mem_append_right _ List.mem_cons_self
  obtain ⟨outcomes, hOutcomes, hMem⟩ := List.mem_flatten.mp hMem
  obtain ⟨chunk, hChunk, rfl⟩ := List.mem_map.mp hOutcomes
  obtain ⟨request, hRequest, rfl⟩ := List.mem_map.mp hMem
  obtain ⟨block, hBlock⟩ := h.read chunk hChunk request hRequest
  rw [hBlock] at hFailed
  cases hFailed

theorem Workable.results (h : Workable env t size file filterInfo lists) :
    ∃ results, tmaxWorkingTurn env t = some results ∧ results ≠ [] ∧
      Framed t.bufferSize (snippetFrames lists) results := by
  obtain ⟨results, hWorking, hSome, hFramed⟩ :=
    tmaxWorking_framed_of_workable t.id env.resultHeap h.bufferSize_small h.blocks
    h.bufferSize_nonneg
  refine ⟨results, ?_, hSome, hFramed⟩
  have hFile := (robust_of_unreached t.id env.resultHeap h.unreached).results env.fuel (env.reused t)
  rw [h.filtered, Option.bind_some, hWorking] at hFile
  rw [tmaxWorkingTurn, h.opened]
  simp only [h.filter, h.blockSize, tmaxWorkingSnippet_eq h.size_pos h.size_lt h.addressable, Option.bind_eq_bind,
    Option.bind_some]
  exact hFile

end Workable

/-- The results hold the frames, and there are none exactly if the file cannot be opened. -/
structure ResultsOf (bufferSize : Int) (frames : Option (List Bytes)) (results : List Result) : Prop where
  framed : Framed bufferSize (frames.getD []) results
  none_iff : results = [] ↔ frames = none

theorem Serves.results {frames : Option (List Bytes)} (h : Serves env t frames) :
    ∃ results, tmaxWorkingTurn env t = some results ∧ ResultsOf t.bufferSize frames results := by
  cases h with
  | unopened h =>
    refine ⟨[], by rw [tmaxWorkingTurn, h], ⟨by simp, rfl, [], rfl, rfl⟩, iff_of_true rfl rfl⟩
  | opened h =>
    obtain ⟨results, hTurn, hSome, hFramed⟩ := h.results
    exact ⟨results, hTurn, hFramed, iff_of_false hSome (Option.some_ne_none _)⟩

end Serves

section Sent
variable {n : Nat} {env : Environment} {write : Tree → Bytes} {σ σ' : State n}

/-- The connection is that of the result. -/
def Carries (write : Tree → Bytes) (result : Result) (connection : Connection) : Prop :=
  ∃ calls, connection = sendResult write result calls

/-- The peer has the header and the data of the result. -/
def Delivers (write : Tree → Bytes) (result : Result) (connection : Connection) : Prop :=
  connection.sent = wire (headerText write (resultTree result)) result.length result.content

theorem Carries.delivers {result : Result} {connection : Connection} (h : Carries write result connection)
    (hComplete : connection.complete = true) : Delivers write result connection := by
  obtain ⟨calls, rfl⟩ := h
  exact Return.sent_of_complete hComplete

structure SentInOrder (env : Environment) (write : Tree → Bytes) (σ : State n) : Prop where
  reachable : ∃ actions, run (Workers.step (tmaxWorkingTurn env)) Workers.initial actions = some σ.workers
  sent : Forwarded (Carries write) σ.workers.out σ.sent

theorem sentInOrder_step {a : Action n} (h : SentInOrder env write σ) (hStep : step env write σ a = some σ') :
    SentInOrder env write σ' := by
  cases a with
  | work a =>
    obtain ⟨workers, hWorkers, rfl⟩ := Option.map_eq_some_iff.mp hStep
    obtain ⟨actions, hRun⟩ := h.reachable
    refine ⟨⟨actions ++ [a], ?_⟩, h.sent.grow (Workers.moves_of_step hWorkers).out⟩
    rw [run_append, hRun, Option.bind_some, run_cons, hWorkers]
    rfl
  | answer calls =>
    obtain ⟨result, hResult, hEnd⟩ := Option.bind_eq_some_iff.mp hStep
    obtain rfl := Option.some_inj.mp hEnd
    exact ⟨h.reachable, h.sent.next hResult ⟨calls, rfl⟩⟩

theorem sentInOrder_run {actions : List (Action n)} (h : run (step env write) (initial n) actions = some σ) :
    SentInOrder env write σ :=
  run_preserves (fun _ _ _ hs hStep => sentInOrder_step hs hStep) ⟨⟨[], rfl⟩, forwarded_nil⟩ h

end Sent

/-- The connections carry results. Those with the id of a snippet are the first of its results, and when no thread can
move they are all of them. A connection on which nothing was lost delivers its result. -/
structure Answered (write : Tree → Bytes) (id : Int) (still : Prop) (results done : List Result)
    (sent : List Connection) : Prop where
  carried : List.Forall₂ (Carries write) done sent
  delivered : (∀ c ∈ sent, c.complete = true) → List.Forall₂ (Delivers write) done sent
  own : Workers.named Result.id id done <+: results
  all : still → Workers.named Result.id id done = results

/-- In every interleaving of the threads, what is sent under the id of a snippet are the results of the snippet, in
their order and none twice, and in the end all of them. -/
theorem snippets_answered {n : Nat} {env : Environment} {write : Tree → Bytes} {σ : State n} {actions : List (Action n)}
    (frames : TSnippet → Option (List Bytes)) (hn : 0 < n) (hRun : run (step env write) (initial n) actions = some σ)
    (hIds : (σ.workers.received.map TSnippet.id).Nodup) (hServes : ∀ t ∈ σ.workers.received, Serves env t (frames t))
    {t : TSnippet} (ht : t ∈ σ.workers.received) :
    ∃ results done, tmaxWorkingTurn env t = some results ∧ ResultsOf t.bufferSize (frames t) results ∧
      Answered write t.id (Still env write σ) results done σ.sent := by
  obtain ⟨⟨workActions, hWork⟩, hSent⟩ := sentInOrder_run hRun
  have hLabels : ∀ t results, tmaxWorkingTurn env t = some results → ∀ result ∈ results, result.id = t.id :=
    fun _ _ h => tmaxWorkingTurn_signed h
  obtain ⟨results, hTurn, hResults⟩ := (hServes t ht).results
  obtain ⟨done, rest, hSplit, hDone⟩ := id hSent
  refine ⟨results, done, hTurn, hResults, hDone, fun hComplete => ?_, ?_, fun hStill => ?_⟩
  · exact Forward.forall₂_of_forall_sent hDone hComplete Carries.delivers
  · refine List.IsPrefix.trans ?_ (Workers.named_out_start hLabels hWork hIds ht hTurn)
    rw [hSplit, Workers.named_append]
    exact List.prefix_append _ _
  · have hEnd : σ.workers.out[σ.sent.length]? = none := by
      have hStuck := hStill.2 (Return.wholeCalls 0 0 [])
      cases hNext : σ.workers.out[σ.sent.length]? with
      | none => rfl
      | some result =>
        rw [tmaxReturn, hNext] at hStuck
        cases hStuck
    have : Nonempty (Fin n) := ⟨⟨0, hn⟩⟩
    have hNamed := Workers.named_out_of_idle hLabels hWork hIds ht hTurn
      (fun source hSource => (hServes source hSource).results.imp fun _ h => h.1) hStill.1
    rwa [Forward.done_eq_source (hSent.all hEnd) hSplit hDone]

/-- The rows with `A` in the first column, of two blocks. -/
def equalASnippet : TSnippet :=
  { id := 7, blockSize := 8192, bufferSize := 65536, chunks := [smallChunk],
    filterInfo := encode equalADescription.layout
    fileName := ascii "1.blk" }

def missingSnippet : TSnippet := { equalASnippet with id := 8, fileName := ascii "2.blk" }

def oneFile : Environment :=
  { files := fun name => if name = path equalASnippet then some fun _ => twoRows else none
    reused := fun _ => unused, filterHeap := zeroed, resultHeap := zeroed, fuel := 3 }

/-- Whether the worker can deal with the lists, and their frames. -/
def surveyed (lists : List (List (Option ChunkList))) : Bool × List Bytes :=
  (lists.all fun blocks => blocks.all fun block => block.all fun chunkList =>
      chunkList.chainedChunk.isEmpty && chunkList.resChunk.all (fun chunk => chunk.used ≤ resChunkSize) &&
        decide (chunkList.entries.length + 2 ≤ 3),
    snippetFrames lists)

theorem equalASnippet_surveyed :
    ((filterOf oneFile equalASnippet).bind fun filterInfo => filterBlocks filterInfo (readable (equalASnippet.chunks.map
      fun chunk => (blocksOf chunk 8192).map fun _ => twoRows))).map surveyed =
        some (true, [[0, 3, 0, 1, 65, 0], [0, 3, 0, 1, 65, 0]]) := by
  decide +kernel

theorem workable_of_surveyed {lists : List (List (Option ChunkList))} (h : (surveyed lists).1 = true) :
    ∀ blocks ∈ lists, ∀ block ∈ blocks, Tmax.Workable 65536 3 block := by
  intro blocks hBlocks block hBlock
  have hAll := List.all_eq_true.mp (List.all_eq_true.mp h blocks hBlocks) block hBlock
  cases block with
  | none => exact ⟨by simp, by simp⟩
  | some chunkList =>
    rw [Option.all_some, Bool.and_eq_true, Bool.and_eq_true, List.isEmpty_iff, List.all_eq_true] at hAll
    obtain ⟨⟨hChained, hUsed⟩, hLength⟩ := hAll
    constructor
    · intro other hOther
      obtain rfl := Option.some_inj.mp hOther
      exact flushable_of_plain ⟨hChained, fun chunk hChunk => of_decide_eq_true (hUsed chunk hChunk)⟩ (by decide)
    · intro other hOther
      obtain rfl := Option.some_inj.mp hOther
      exact of_decide_eq_true hLength

theorem smallChunk_addressable : Addressable smallChunk 8192 := ⟨by decide, by decide, by decide⟩

theorem equalASnippet_serves :
    Serves oneFile equalASnippet (some [[0, 3, 0, 1, 65, 0], [0, 3, 0, 1, 65, 0]]) := by
  obtain ⟨lists, hLists, hSurveyed⟩ := Option.map_eq_some_iff.mp equalASnippet_surveyed
  obtain ⟨filterInfo, hFilter, hFiltered⟩ := Option.bind_eq_some_iff.mp hLists
  have hFrames : snippetFrames lists = [[0, 3, 0, 1, 65, 0], [0, 3, 0, 1, 65, 0]] := congrArg Prod.snd hSurveyed
  rw [← hFrames]
  refine .opened (?_ : Workable _ _ 8192 (fun _ => twoRows) filterInfo lists)
  constructor
  case opened => simp only [oneFile, if_true]
  case filter => exact hFilter
  case blockSize => rfl
  case addressable => exact List.forall_mem_singleton.mpr smallChunk_addressable
  case filtered => exact hFiltered
  case blocks => exact workable_of_surveyed (congrArg Prod.fst hSurveyed)
  case read => exact fun chunk _ request _ => ⟨_, rfl⟩
  all_goals decide

end CsdWorker.Tmax.Service
