import CsdWorker.Lib.Run
import CsdWorker.RawDataHandler

/-! # The projection layer

`projection.cc` with the merge buffers of `data_structure.h`. A run is any interleaving of the steps of
`n` workers with the arrival of results. `enqueued`, `processed` and `zeroCount` only record what
happened, and a message is recorded with the key of the buffer it came from.
-/

namespace CsdWorker.Projection

open Memory

set_option autoImplicit false

def Snippet.key (snippet : Snippet) : String := makeMapKey snippet.queryId snippet.workId

structure Work where
  snippet : Snippet
  data : Data

namespace Work

def key (work : Work) : String := Snippet.key work.snippet

def toResult (work : Work) : CsdResult := ⟨some work.snippet, work.data⟩

end Work

section Row
variable (u : KValue)

/-- The loop over the projection list; only plain expressions are offloaded. -/
def projectColumns (row : Mem) (offsets : List Int) : List Projectioning → Mem → Nat → Eval (Nat × Mem)
  | [], dest, projectionRowLength => pure (projectionRowLength, dest)
  | projection :: rest, dest, projectionRowLength =>
    match projection.selectType with
    | .colName => do
      let (columnLength, dest) ← projectionRawData u row projection.expression offsets dest projectionRowLength
      projectColumns row offsets rest dest (projectionRowLength + columnLength)
    | _ => projectColumns row offsets rest dest projectionRowLength

def projectRow (snippet : Snippet) (row : Bytes) : Option Bytes := do
  let offsets ← columnOffsetList row snippet.schemaInfo
  let (length, dest) ←
    (projectColumns u (ofBytes row) offsets snippet.queryInfo.projection zeroed 0).run' snippet.schemaInfo
  pure (read dest 0 length)

end Row

inductive Pc (n : Nat) where
  | notStarted
  | waiting
  | popped (work : Work)
  | counted (work : Work)
  | merging (work : Work) (i : Nat)
  | writing (work : Work) (i : Nat) (row : Bytes)
  | adding (work : Work)
  | counting (work : Work)
  | releasing (key : String) (todo : List (Fin n)) (flag : Bool)

structure State (n : Nat) where
  queue : List CsdResult
  pc : Fin n → Pc n
  mergeBufferList : List (Fin n)
  idBufferMap : Fin n → String → Option CsdResult
  idBlockCountMap : String → Option Int
  mu : Option (Fin n)
  returned : List (String × CsdResult)
  enqueued : List CsdResult
  processed : List CsdResult
  zeroCount : String → Nat

def initial (n : Nat) : State n :=
  { queue := [], pc := fun _ => .notStarted, mergeBufferList := [], idBufferMap := fun _ _ => none,
    idBlockCountMap := fun _ => none, mu := none, returned := [], enqueued := [], processed := [],
    zeroCount := fun _ => 0 }

section Steps
variable {n : Nat} (u : KValue) (σ : State n) (w : Fin n)

/-- `id_buffer_map[key]`: a missing entry is made with a null snippet. -/
def bufferAt (key : String) : CsdResult := (σ.idBufferMap w key).getD ⟨none, Data.clear⟩

def setBuffer (key : String) (buffer : Option CsdResult) : Fin n → String → Option CsdResult :=
  Function.update σ.idBufferMap w (Function.update (σ.idBufferMap w) key buffer)

def setPc (pc : Pc n) : Fin n → Pc n := Function.update σ.pc w pc

def enqueueProjection (result : CsdResult) : State n :=
  { σ with queue := σ.queue ++ [result], enqueued := σ.enqueued ++ [result] }

def projectionWorker : State n :=
  { σ with pc := setPc σ w .waiting, mergeBufferList := σ.mergeBufferList ++ [w] }

def popWork (work : Work) (queue : List CsdResult) : State n :=
  { σ with queue := queue, pc := setPc σ w (.popped work) }

def waitAndPop : Option (State n) :=
  match σ.queue with
  | [] => none
  | result :: queue => do
    let snippet ← result.snippet
    pure (popWork σ w ⟨snippet, result.data⟩ queue)

def insertBlockCount (work : Work) : State n :=
  { σ with
    pc := setPc σ w (.counted work)
    idBlockCountMap := Function.update σ.idBlockCountMap work.key
      (some ((σ.idBlockCountMap work.key).getD work.snippet.resultInfo.csdBlockCount)) }

def makeBlockCountMap (work : Work) : Option (State n) :=
  if σ.mu = none then some (insertBlockCount σ w work) else none

def checkIdBuffer (work : Work) : State n :=
  { σ with
    pc := setPc σ w (.merging work 0)
    idBufferMap := setBuffer σ w work.key
      (some ((σ.idBufferMap w work.key).getD ⟨some work.snippet, Data.clear⟩)) }

def flushBuffer (work : Work) (i : Nat) (row : Bytes) : State n :=
  { σ with
    pc := setPc σ w (.writing work i row)
    idBufferMap := setBuffer σ w work.key (some { bufferAt σ w work.key with data := Data.clear })
    returned := σ.returned ++ [(work.key, bufferAt σ w work.key)] }

def keepBuffer (work : Work) (i : Nat) (row : Bytes) : State n :=
  { σ with
    pc := setPc σ w (.writing work i row)
    idBufferMap := setBuffer σ w work.key (some (bufferAt σ w work.key)) }

def endRows (work : Work) : State n := { σ with pc := setPc σ w (.adding work) }

def projectNext (work : Work) (i : Nat) : Option (State n) :=
  if i < work.data.rowCount then do
    let row ← projectRow u work.snippet (work.data.rowAt i)
    if (bufferAt σ w work.key).data.dataLength + row.length > bufferSize then pure (flushBuffer σ w work i row)
    else pure (keepBuffer σ w work i row)
  else some (endRows σ w work)

def writeRow (work : Work) (i : Nat) (row : Bytes) : State n :=
  let buffer := bufferAt σ w work.key
  { σ with
    pc := setPc σ w (.merging work (i + 1))
    idBufferMap := setBuffer σ w work.key (some { buffer with data := buffer.data.pushRow row }) }

def Data.addCounts (d counts : Data) : Data :=
  { d with
    currentBlockCount := d.currentBlockCount + counts.currentBlockCount
    scannedRowCount := d.scannedRowCount + counts.scannedRowCount
    filteredRowCount := d.filteredRowCount + counts.filteredRowCount }

def addCounts (work : Work) : State n :=
  let buffer := bufferAt σ w work.key
  { σ with
    pc := setPc σ w (.counting work)
    idBufferMap := setBuffer σ w work.key (some { buffer with data := Data.addCounts buffer.data work.data }) }

def skipCount (work : Work) : State n :=
  { σ with pc := setPc σ w .waiting, processed := σ.processed ++ [work.toResult] }

def countDown (work : Work) (count : Int) : State n :=
  { σ with
    pc := setPc σ w .waiting
    idBlockCountMap := Function.update σ.idBlockCountMap work.key (some count)
    processed := σ.processed ++ [work.toResult] }

/-- The lock is kept for the loop over the merge buffers. -/
def startRelease (work : Work) : State n :=
  { σ with
    pc := setPc σ w (.releasing work.key σ.mergeBufferList true)
    mu := some w
    idBlockCountMap := Function.update σ.idBlockCountMap work.key (some 0)
    processed := σ.processed ++ [work.toResult]
    zeroCount := Function.update σ.zeroCount work.key (σ.zeroCount work.key + 1) }

/-- `block_count_down_and_release_buffer` up to the loop. -/
def blockCountDown (work : Work) : Option (State n) :=
  if σ.mu = none then
    match σ.idBlockCountMap work.key with
    | none => some (skipCount σ w work)
    | some count =>
      if count - work.data.currentBlockCount = 0 then some (startRelease σ w work)
      else some (countDown σ w work (count - work.data.currentBlockCount))
  else none

def passBuffer (key : String) (todo : List (Fin n)) (flag : Bool) : State n :=
  { σ with pc := setPc σ w (.releasing key todo flag) }

def shipBuffer (key : String) (v : Fin n) (todo : List (Fin n)) (buffer : CsdResult) : State n :=
  { σ with
    pc := setPc σ w (.releasing key todo false)
    idBufferMap := setBuffer σ v key none
    returned := σ.returned ++ [(key, buffer)] }

/-- One turn of the loop. The first message is logged with the ids of its snippet. -/
def releaseBuffer (key : String) (v : Fin n) (todo : List (Fin n)) (flag : Bool) : Option (State n) :=
  match σ.idBufferMap v key with
  | none => some (passBuffer σ w key todo flag)
  | some buffer => if flag && buffer.snippet.isNone then none else some (shipBuffer σ w key v todo buffer)

def eraseBlockCount (key : String) : State n :=
  { σ with
    pc := setPc σ w .waiting
    mu := none
    idBlockCountMap := Function.update σ.idBlockCountMap key none }

def workerStep : Option (State n) :=
  match σ.pc w with
  | .notStarted => some (projectionWorker σ w)
  | .waiting => waitAndPop σ w
  | .popped work => makeBlockCountMap σ w work
  | .counted work => some (checkIdBuffer σ w work)
  | .merging work i => projectNext u σ w work i
  | .writing work i row => some (writeRow σ w work i row)
  | .adding work => some (addCounts σ w work)
  | .counting work => blockCountDown σ w work
  | .releasing key (v :: todo) flag => releaseBuffer σ w key v todo flag
  | .releasing key [] _ => some (eraseBlockCount σ w key)

end Steps

inductive Action (n : Nat) where
  | enqueue (result : CsdResult)
  | work (w : Fin n)

def step {n : Nat} (u : KValue) (σ : State n) : Action n → Option (State n)
  | .enqueue result => some (enqueueProjection σ result)
  | .work w => workerStep u σ w

/-- Everything a worker can do, with what made it possible. -/
inductive Transition {n : Nat} (u : KValue) (σ : State n) (w : Fin n) : State n → Prop where
  | start (hPc : σ.pc w = .notStarted) : Transition u σ w (projectionWorker σ w)
  | pop (work : Work) (queue : List CsdResult) (hPc : σ.pc w = .waiting) (hQueue : σ.queue = work.toResult :: queue) :
    Transition u σ w (popWork σ w work queue)
  | insert (work : Work) (hPc : σ.pc w = .popped work) (hMu : σ.mu = none) :
    Transition u σ w (insertBlockCount σ w work)
  | check (work : Work) (hPc : σ.pc w = .counted work) : Transition u σ w (checkIdBuffer σ w work)
  | flush (work : Work) (i : Nat) (row : Bytes) (hPc : σ.pc w = .merging work i) (hi : i < work.data.rowCount)
      (hRow : projectRow u work.snippet (work.data.rowAt i) = some row) :
    Transition u σ w (flushBuffer σ w work i row)
  | keep (work : Work) (i : Nat) (row : Bytes) (hPc : σ.pc w = .merging work i) (hi : i < work.data.rowCount)
      (hRow : projectRow u work.snippet (work.data.rowAt i) = some row) :
    Transition u σ w (keepBuffer σ w work i row)
  | rowsEnd (work : Work) (i : Nat) (hPc : σ.pc w = .merging work i) (hi : ¬ i < work.data.rowCount) :
    Transition u σ w (endRows σ w work)
  | write (work : Work) (i : Nat) (row : Bytes) (hPc : σ.pc w = .writing work i row) :
    Transition u σ w (writeRow σ w work i row)
  | add (work : Work) (hPc : σ.pc w = .adding work) : Transition u σ w (addCounts σ w work)
  | skip (work : Work) (hPc : σ.pc w = .counting work) (hMu : σ.mu = none)
      (hCount : σ.idBlockCountMap work.key = none) :
    Transition u σ w (skipCount σ w work)
  | down (work : Work) (count : Int) (hPc : σ.pc w = .counting work) (hMu : σ.mu = none)
      (hCount : σ.idBlockCountMap work.key = some count) (hMore : count - work.data.currentBlockCount ≠ 0) :
    Transition u σ w (countDown σ w work (count - work.data.currentBlockCount))
  | zero (work : Work) (count : Int) (hPc : σ.pc w = .counting work) (hMu : σ.mu = none)
      (hCount : σ.idBlockCountMap work.key = some count) (hZero : count - work.data.currentBlockCount = 0) :
    Transition u σ w (startRelease σ w work)
  | pass (key : String) (v : Fin n) (todo : List (Fin n)) (flag : Bool)
      (hPc : σ.pc w = .releasing key (v :: todo) flag) (hBuffer : σ.idBufferMap v key = none) :
    Transition u σ w (passBuffer σ w key todo flag)
  | ship (key : String) (v : Fin n) (todo : List (Fin n)) (flag : Bool) (buffer : CsdResult)
      (hPc : σ.pc w = .releasing key (v :: todo) flag) (hBuffer : σ.idBufferMap v key = some buffer) :
    Transition u σ w (shipBuffer σ w key v todo buffer)
  | erase (key : String) (flag : Bool) (hPc : σ.pc w = .releasing key [] flag) :
    Transition u σ w (eraseBlockCount σ w key)

theorem transition_of_workerStep {n : Nat} {u : KValue} {σ σ' : State n} {w : Fin n}
    (h : workerStep u σ w = some σ') : Transition u σ w σ' := by
  cases hPc : σ.pc w with
  | notStarted =>
    simp only [workerStep, hPc, Option.some_inj] at h
    exact h ▸ .start hPc
  | waiting =>
    simp only [workerStep, hPc, waitAndPop] at h
    cases hQueue : σ.queue with
    | nil => simp [hQueue] at h
    | cons result queue =>
      rw [hQueue] at h
      obtain ⟨snippet, hSnippet, hSome⟩ := Option.bind_eq_some_iff.mp h
      cases hSome
      refine .pop ⟨snippet, result.data⟩ queue hPc ?_
      rw [hQueue, Work.toResult, ← hSnippet]
  | popped work =>
    simp only [workerStep, hPc, makeBlockCountMap] at h
    split at h
    · cases h
      exact .insert work hPc ‹_›
    · cases h
  | counted work =>
    simp only [workerStep, hPc, Option.some_inj] at h
    exact h ▸ .check work hPc
  | merging work i =>
    simp only [workerStep, hPc, projectNext] at h
    split at h
    · obtain ⟨row, hRow, hSome⟩ := Option.bind_eq_some_iff.mp h
      split at hSome
      · cases hSome
        exact .flush work i row hPc ‹_› hRow
      · cases hSome
        exact .keep work i row hPc ‹_› hRow
    · cases h
      exact .rowsEnd work i hPc ‹_›
  | writing work i row =>
    simp only [workerStep, hPc, Option.some_inj] at h
    exact h ▸ .write work i row hPc
  | adding work =>
    simp only [workerStep, hPc, Option.some_inj] at h
    exact h ▸ .add work hPc
  | counting work =>
    simp only [workerStep, hPc, blockCountDown] at h
    split at h
    · split at h
      · cases h
        exact .skip work hPc ‹_› ‹_›
      · split at h
        · cases h
          exact .zero work _ hPc ‹_› ‹_› ‹_›
        · cases h
          exact .down work _ hPc ‹_› ‹_› ‹_›
    · cases h
  | releasing key todo flag =>
    cases todo with
    | nil =>
      simp only [workerStep, hPc, Option.some_inj] at h
      exact h ▸ .erase key flag hPc
    | cons v todo =>
      simp only [workerStep, hPc, releaseBuffer] at h
      split at h
      · cases h
        exact .pass key v todo flag hPc ‹_›
      · split at h
        · cases h
        · cases h
          exact .ship key v todo flag _ hPc ‹_›

end CsdWorker.Projection
