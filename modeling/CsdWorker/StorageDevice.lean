import CsdWorker.AnswersReceived
import CsdWorker.SnippetOrder

/-! # The device between its two sockets

The input worker in front of the layers and the return worker. What arrives on a connection becomes a request of the
scan layer or of the other worker, and what leaves is what the rows of the requests make of the answers.
-/

namespace CsdWorker.WorkerModule

open Memory Run Scan
open Projection (Snippet.key)

set_option autoImplicit false

section Unanswered
variable {k m n : Nat} {storage : Storage} {u : KValue} {depth : Nat} {σ : State k m n} {actions : List (Action k m n)}
variable {request : Request}

/-- A request whose scan hands nothing on has no message. -/
theorem not_returned_of_no_batches (hRun : run (step storage u depth) (initial k m n) actions = some σ)
    (hIds : DistinctIds σ.received) (hRequest : request ∈ σ.received) (hNone : batchesOf storage request = []) :
    ∀ message ∈ σ.layers.projection.returned, message.1 ≠ Snippet.key request.snippet := by
  intro message hMessage hKey
  obtain ⟨projectionActions, hProjection⟩ := projectionReachable_run hRun
  obtain ⟨work, hWork, hFiled⟩ := Projection.keyed_run hProjection message hMessage
  obtain ⟨o, ⟨other, hOther, ho⟩, hPass⟩ := (sourced_run hRun).enqueued _ hWork
  have hOwn := (Pipeline.passOn_own (snippet_of_mem_batchesOf ho) hPass).1
  obtain hSnippet : work.snippet = other.snippet := Option.some_inj.mp hOwn
  obtain ⟨hRequests, hDistinct⟩ := requestsOf_eq_singleton hIds hRequest
  have hSame : SameIds other.snippet request.snippet := hSnippet ▸ makeMapKey_inj (hFiled.trans hKey)
  have hMem : other ∈ requestsOf request.snippet σ.received :=
    List.mem_filter.mpr ⟨hOther, decide_eq_true (hDistinct other hOther hSame)⟩
  rw [hRequests, List.mem_singleton] at hMem
  rw [hMem, hNone] at ho
  cases ho

end Unanswered

end CsdWorker.WorkerModule

namespace CsdWorker.Device

open Memory Run Scan Endian
open Input (Accepted Arrival Order ParsedSnippet Sent TSnippet knownTexts parseSnippet receive)
open Json (CInt CText Reader Reads Tree)
open Pipeline (deliverable)
open Projection (Snippet.key)
open Return (Answer Calls)
open WorkerModule (Answered Csd CsdAction DistinctIds Servable SmallRows Still batchesOf csdInitial csdStep enqueueScan
  ofRequest)

set_option autoImplicit false

/-- `parsed` are the snippets that the input worker has given to the scan layer. -/
structure State (k m n : Nat) where
  csd : Csd k m n
  parsed : List ParsedSnippet
  tmaxWork : List TSnippet

inductive Action (k m n : Nat) where
  | accept (turns : Nat) (indeterminate : Mem) (connection : List Arrival)
  | work (a : WorkerModule.Action k m n)
  | answer (calls : Calls)

def initial (k m n : Nat) : State k m n := ⟨csdInitial k m n, [], []⟩

section Steps
variable {Value : Type} {k m n : Nat} (reader : Reader Value) (storage : Storage) (u : KValue) (depth : Nat)
variable (write : Tree → Bytes) (σ : State k m n)

/-- One turn of `input_worker`. A text that the reader does not get through ends the module. -/
def inputWorker (turns : Nat) (indeterminate : Mem) (connection : List Arrival) : Option (State k m n) := do
  match ← receive turns indeterminate connection with
  | .exited => none
  | .passed json _ =>
    match ← parseSnippet reader json with
    | .tmax tSnippet => pure { σ with tmaxWork := σ.tmaxWork ++ [tSnippet] }
    | .scan p =>
      pure { σ with csd := { σ.csd with worker := enqueueScan σ.csd.worker p.request }, parsed := σ.parsed ++ [p] }

/-- The scan layer has its requests from the input worker only. -/
def step : Action k m n → Option (State k m n)
  | .accept turns indeterminate connection => inputWorker reader σ turns indeterminate connection
  | .work a =>
    if a.request = none then (csdStep storage u depth write σ.csd (.work a)).map fun csd => { σ with csd } else none
  | .answer calls => (csdStep storage u depth write σ.csd (.answer calls)).map fun csd => { σ with csd }

end Steps

section Run
variable {Value : Type} {k m n : Nat} {reader : Reader Value} {storage : Storage} {u : KValue} {depth : Nat}
variable {write : Tree → Bytes} {σ σ' : State k m n}

/-- What the input worker has given to the scan layer is accepted, and the layers do not know where it comes from. -/
structure Fed (storage : Storage) (u : KValue) (depth : Nat) (write : Tree → Bytes) (σ : State k m n) : Prop where
  reachable : ∃ actions, run (csdStep storage u depth write) (csdInitial k m n) actions = some σ.csd
  received : σ.csd.worker.received = σ.parsed.map ParsedSnippet.request
  accepted : ∀ p ∈ σ.parsed, Accepted p

theorem inputWorker_cases {turns : Nat} {indeterminate : Mem} {connection : List Arrival}
    (h : inputWorker reader σ turns indeterminate connection = some σ') :
    ∃ json rest, receive turns indeterminate connection = some (.passed json rest) ∧
      ((∃ tSnippet, parseSnippet reader json = some (.tmax tSnippet) ∧
          σ' = { σ with tmaxWork := σ.tmaxWork ++ [tSnippet] }) ∨
        ∃ p, parseSnippet reader json = some (.scan p) ∧ σ' = { σ with
          csd := { σ.csd with worker := enqueueScan σ.csd.worker p.request }, parsed := σ.parsed ++ [p] }) := by
  obtain ⟨received, hReceived, hBody⟩ := Option.bind_eq_some_iff.mp h
  cases received with
  | exited => cases hBody
  | passed json rest =>
    obtain ⟨parsed, hParsed, hEnd⟩ := Option.bind_eq_some_iff.mp hBody
    refine ⟨json, rest, hReceived, ?_⟩
    cases parsed with
    | tmax tSnippet => exact Or.inl ⟨tSnippet, hParsed, (Option.some_inj.mp hEnd).symm⟩
    | scan p => exact Or.inr ⟨p, hParsed, (Option.some_inj.mp hEnd).symm⟩

theorem fed_input {turns : Nat} {indeterminate : Mem} {connection : List Arrival} (h : Fed storage u depth write σ)
    (hStep : inputWorker reader σ turns indeterminate connection = some σ') : Fed storage u depth write σ' := by
  obtain ⟨json, rest, -, ⟨tSnippet, -, rfl⟩ | ⟨p, hParsed, rfl⟩⟩ := inputWorker_cases hStep
  · exact ⟨h.reachable, h.received, h.accepted⟩
  · obtain ⟨actions, hRun⟩ := h.reachable
    refine ⟨⟨actions ++ [.work (.receive p.request)], ?_⟩, ?_, ?_⟩
    · rw [run_append, hRun]
      rfl
    · rw [List.map_append, ← h.received]
      rfl
    · exact List.forall_mem_append.mpr ⟨h.accepted, List.forall_mem_singleton.mpr (Input.parseSnippet_accepted hParsed)⟩

theorem fed_step {a : Action k m n} (h : Fed storage u depth write σ)
    (hStep : step reader storage u depth write σ a = some σ') :
    Fed storage u depth write σ' := by
  obtain ⟨actions, hRun⟩ := h.reachable
  have hNext : ∀ {csd : Csd k m n} {a : CsdAction k m n}, csdStep storage u depth write σ.csd a = some csd →
      run (csdStep storage u depth write) (csdInitial k m n) (actions ++ [a]) = some csd := by
    intro csd a hCsd
    rw [run_append, hRun, Option.bind_some, run_cons, hCsd]
    rfl
  cases a with
  | accept turns indeterminate connection => exact fed_input h hStep
  | work a =>
    rw [step] at hStep
    split at hStep
    · rename_i hNone
      obtain ⟨csd, hCsd, rfl⟩ := Option.map_eq_some_iff.mp hStep
      refine ⟨⟨_, hNext hCsd⟩, ?_, h.accepted⟩
      obtain ⟨worker, hWorker, rfl⟩ := Option.map_eq_some_iff.mp hCsd
      have hReceived :=
        WorkerModule.received_run (show run (WorkerModule.step storage u depth) σ.csd.worker [a] = some worker by
        rw [run_cons, hWorker]; rfl)
      rw [List.filterMap_cons_none hNone, List.filterMap_nil, List.append_nil] at hReceived
      exact hReceived.trans h.received
    · cases hStep
  | answer calls =>
    obtain ⟨csd, hCsd, rfl⟩ := Option.map_eq_some_iff.mp hStep
    refine ⟨⟨_, hNext hCsd⟩, ?_, h.accepted⟩
    obtain ⟨message, -, hBody⟩ := Option.bind_eq_some_iff.mp hCsd
    obtain ⟨connection, -, hEnd⟩ := Option.bind_eq_some_iff.mp hBody
    obtain rfl := Option.some_inj.mp hEnd
    exact h.received

theorem fed_run {actions : List (Action k m n)}
    (h : run (step reader storage u depth write) (initial k m n) actions = some σ) :
    Fed storage u depth write σ :=
  run_preserves (fun _ _ _ hs hStep => fed_step hs hStep) ⟨⟨[], rfl⟩, rfl, by simp [initial]⟩ h

theorem parsed_of_step {a : Action k m n} (h : step reader storage u depth write σ a = some σ') :
    σ.parsed <+: σ'.parsed := by
  cases a with
  | accept turns indeterminate connection =>
    obtain ⟨json, rest, -, ⟨tSnippet, -, rfl⟩ | ⟨p, -, rfl⟩⟩ := inputWorker_cases h
    · exact List.prefix_rfl
    · exact List.prefix_append _ _
  | work a =>
    rw [step] at h
    split at h
    · obtain ⟨csd, -, rfl⟩ := Option.map_eq_some_iff.mp h
      exact List.prefix_rfl
    · cases h
  | answer calls =>
    obtain ⟨csd, -, rfl⟩ := Option.map_eq_some_iff.mp h
    exact List.prefix_rfl

/-- The input worker takes the order. -/
theorem inputWorker_carried {turns : Nat} {indeterminate : Mem} {connection : List Arrival} {text : Bytes} {o : Order}
    (hReads : Reads reader text o.document) (h : Input.Carried turns connection text) :
    inputWorker reader σ turns indeterminate connection = some { σ with
      csd := { σ.csd with worker := enqueueScan σ.csd.worker o.request }, parsed := σ.parsed ++ [o.parsed] } := by
  obtain ⟨rest, hReceived⟩ := h.receive indeterminate
  have hParsed : parseSnippet reader text = some (.scan o.parsed) :=
    Input.parseSnippet_text (s := .scan o) h.noZero hReads
  rw [inputWorker, hReceived, Option.bind_eq_bind, Option.bind_some]
  simp only [hParsed]
  rfl

/-- An order that came over one of the connections is with the scan layer. -/
theorem parsed_of_carried {actions : List (Action k m n)} {turns : Nat} {indeterminate : Mem}
    {connection : List Arrival} {text : Bytes} {o : Order} (hReads : Reads reader text o.document)
    (hCarried : Input.Carried turns connection text)
    (hRun : run (step reader storage u depth write) σ actions = some σ')
    (hAccept : .accept turns indeterminate connection ∈ actions) : o.parsed ∈ σ'.parsed := by
  induction actions generalizing σ with
  | nil => cases hAccept
  | cons a actions ih =>
    rw [run_cons] at hRun
    obtain ⟨t, hFirst, hRest⟩ := Option.bind_eq_some_iff.mp hRun
    obtain rfl | hLater := List.mem_cons.mp hAccept
    · have hKept : t.parsed <+: σ'.parsed := run_preserves (I := fun s => t.parsed <+: s.parsed)
        (fun _ _ _ hs hStep => hs.trans (parsed_of_step hStep)) List.prefix_rfl hRest
      refine hKept.subset ?_
      obtain rfl := Option.some_inj.mp ((inputWorker_carried hReads hCarried).symm.trans hFirst)
      exact List.mem_append_right _ List.mem_cons_self
    · exact ih hRest hLater

end Run

/-- Whatever arrives and whatever the reader makes of it, no snippet has a key to seek. What the entries at which a seek
ends are makes no difference to any scan, and to an index scan, as to a scan of an unknown type, there is never an
answer. -/
theorem index_scans_unanswered {Value : Type} {reader : Reader Value} {k m n : Nat} {storage : Storage} {u : KValue}
    {depth : Nat} {write : Tree → Bytes} {σ : State k m n} {actions : List (Action k m n)}
    (hRun : run (step reader storage u depth write) (initial k m n) actions = some σ) {p : ParsedSnippet}
    (hp : p ∈ σ.parsed) :
    p.request.seekKey = [] ∧
      (∀ found foundIn, scanWorker { storage with found, foundIn } p.request = scanWorker storage p.request) ∧
      ((p.request.type = .indexScan ∨ ∃ code, p.request.type = .undefined code) → DistinctIds σ.csd.worker.received →
        ∀ message ∈ σ.csd.worker.layers.projection.returned, message.1 ≠ Snippet.key p.request.snippet) := by
  have hFed := fed_run hRun
  have hNoKey := (hFed.accepted p hp).seekKey
  have hKeys : p.request.seekKey.length = 0 := by rw [hNoKey, List.length_nil]
  refine ⟨hNoKey, fun found foundIn => ?_, fun hType hIds => ?_⟩
  · cases hType : p.request.type with
    | indexScan =>
      rw [scanWorker, scanWorker, hType, hKeys]
      rfl
    | indexTableScan =>
      rw [scanWorker, scanWorker, hType]
      simp only [hKeys, if_true]
    | _ => rw [scanWorker, scanWorker, hType]
  · have hRequest : p.request ∈ σ.csd.worker.received := by
      rw [hFed.received]
      exact List.mem_map_of_mem hp
    have hNone : batchesOf storage p.request = [] := by
      obtain hIndex | ⟨code, hUndefined⟩ := hType
      · rw [batchesOf, scanWorker, hIndex, hKeys]
        rfl
      · rw [batchesOf, scanWorker, hUndefined]
        rfl
    obtain ⟨csdActions, hCsd⟩ := hFed.reachable
    obtain ⟨workActions, hWork⟩ := (WorkerModule.sentInOrder_run hCsd).reachable
    exact WorkerModule.not_returned_of_no_batches hWork hIds hRequest hNone

/-- An index scan of one block, all columns and no condition. -/
def seekOrder : Order :=
  { Input.keysOrder with
    type := CInt.wrap 1
    scans := by decide
    filtering := []
    projection := []
    columns := []
    source := .blocks [⟨[⟨CText.cut (bytesOf "0"), 0, rfl⟩], [CInt.wrap 4096]⟩] }

def seekText : Bytes := bytesOf "index " ++ bytesOf "scan"

def seekConnection : List Arrival := [.data (natLe 8 seekText.length), .data (bytesOf "index "), .data (bytesOf "scan")]

theorem seekConnection_carried : Input.Carried 2 seekConnection seekText :=
  Input.carried_two (bytesOf "index ") (bytesOf "scan") (by decide) (by decide) (by decide) (by decide)

/-- A writer that says the same of every result. -/
def plainHeader : Tree → Bytes := fun _ => bytesOf "result"

/-- The scan worker takes the request and has nothing to hand on. -/
theorem seekOrder_unanswered :
    ∃ σ, run (step (knownTexts [(seekText, .scan seekOrder)]) WorkerModule.ordersStorage .zero 0 plainHeader)
      (initial 1 1 1)
        [.accept 2 zeroed seekConnection, .work (.scan (Fin.last 0))] = some σ ∧ σ.csd.worker.scanQueue = [] ∧
      seekOrder.request.seekKey = [] ∧
      ∀ message ∈ σ.csd.worker.layers.projection.returned, message.1 ≠ Snippet.key seekOrder.snippet := by
  have hAccept : run (step (knownTexts [(seekText, .scan seekOrder)]) WorkerModule.ordersStorage .zero 0 plainHeader)
      (initial 1 1 1) [.accept 2 zeroed seekConnection, .work (.scan (Fin.last 0))] =
        some { csd := { worker := WorkerModule.startScan (enqueueScan (WorkerModule.initial 1 1 1) seekOrder.request)
                          (Fin.last 0) [] [], sent := [] }, parsed := [seekOrder.parsed], tmaxWork := [] } := by
    rw [run_cons, step, inputWorker_carried (Input.reads_knownTexts (s := .scan seekOrder) rfl) seekConnection_carried]
    rfl
  obtain ⟨hNoKey, -, hUnanswered⟩ := index_scans_unanswered hAccept List.mem_cons_self
  exact ⟨_, hAccept, rfl, hNoKey, hUnanswered (Or.inl rfl) (List.pairwise_singleton _ _)⟩

/-- Whatever arrives, whatever the reader makes of it and however the workers interleave, all that the scan layer has
received is well formed. -/
theorem received_accepted {Value : Type} {reader : Reader Value} {k m n : Nat} {storage : Storage} {u : KValue}
    {depth : Nat} {write : Tree → Bytes} {σ : State k m n} {actions : List (Action k m n)}
    (hRun : run (step reader storage u depth write) (initial k m n) actions = some σ) :
    ∀ request ∈ σ.csd.worker.received, ∃ p ∈ σ.parsed, p.request = request ∧ Accepted p := by
  have hFed := fed_run hRun
  intro request hRequest
  rw [hFed.received] at hRequest
  obtain ⟨p, hp, hEq⟩ := List.mem_map.mp hRequest
  exact ⟨p, hp, hEq, hFed.accepted p hp⟩

def keysReader : Reader Tree := knownTexts [(Input.keysText, .scan Input.keysOrder)]

theorem keysReader_reads : Reads keysReader Input.keysText Input.keysOrder.document :=
  Input.reads_knownTexts (s := .scan Input.keysOrder) rfl

theorem keysOrder_accepted :
    ∃ σ, run (step keysReader WorkerModule.ordersStorage .zero 0 plainHeader) (initial 1 1 1)
        [.accept 2 zeroed Input.keysConnection] = some σ ∧
      ∃ p ∈ σ.parsed, p.request = Input.keysOrder.request ∧ Accepted p := by
  have hAccept : run (step keysReader WorkerModule.ordersStorage .zero 0 plainHeader) (initial 1 1 1)
      [.accept 2 zeroed Input.keysConnection] =
        some { csd := { worker := enqueueScan (WorkerModule.initial 1 1 1) Input.keysOrder.request, sent := [] }
               parsed := [Input.keysOrder.parsed], tmaxWork := [] } := by
    rw [run_cons, step, inputWorker_carried keysReader_reads Input.keysConnection_carried]
    rfl
  exact ⟨_, hAccept, received_accepted hAccept Input.keysOrder.request List.mem_cons_self⟩

theorem keysOrder_request : Input.keysOrder.request = WorkerModule.positiveRequest := by decide +kernel

/-- After the input worker has taken the order. -/
def keysAccepted : State 1 1 1 :=
  { csd := { worker := enqueueScan (WorkerModule.initial 1 1 1) WorkerModule.positiveRequest, sent := [] }
    parsed := [Input.keysOrder.parsed]
    tmaxWork := [] }

def keysWork : List (Action 1 1 1) := WorkerModule.positiveActions.tail.map Action.work

/-- The header of six bytes and the data go out as they should. -/
def keysCalls : Calls := Return.wholeCalls 6 bufferSize []

def keysActions : List (Action 1 1 1) := .accept 2 zeroed Input.keysConnection :: (keysWork ++ [.answer keysCalls])

theorem keys_observed :
    (run (step keysReader WorkerModule.ordersStorage .zero 0 plainHeader) keysAccepted keysWork).map (fun σ =>
      ((σ.parsed, σ.csd.worker.received, σ.csd.worker.scanQueue, σ.csd.worker.scanPc 0),
        (σ.csd.worker.layers.filterQueue, σ.csd.worker.layers.filterPc 0),
        (σ.csd.worker.layers.projection.queue, σ.csd.worker.layers.projection.pc 0),
        (σ.csd.worker.layers.projection.returned.map fun m => (m.2.snippet, m.2.data.currentBlockCount)), σ.csd.sent)) =
      some (([Input.keysOrder.parsed], [WorkerModule.positiveRequest], [], []), ([], none), ([], .waiting),
        [(some WorkerModule.positiveKeys, 3)], []) := rfl

/-- One message is sent, and nothing of it is lost. -/
theorem returnWorker_keysCalls {σ : Csd 1 1 1} {message : String × CsdResult} (hSent : σ.sent = [])
    (hMessages : σ.worker.layers.projection.returned = [message])
    (hSnippet : message.2.snippet = some WorkerModule.positiveKeys) :
    ∃ connection, connection.complete = true ∧
      WorkerModule.returnWorker plainHeader σ keysCalls = some { σ with sent := [connection] } := by
  have hSend : ∃ connection, connection.complete = true ∧
      Return.sendData plainHeader message.2 keysCalls = some connection := by
    rw [Return.sendData, hSnippet]
    have hData : (read message.2.data.rawData 0 bufferSize).length = bufferSize := length_read _ _ _
    refine ⟨_, ?_, rfl⟩
    have hComplete := Return.complete_wholeCalls (bytesOf "result") message.2.data.dataLength
      (read message.2.data.rawData 0 bufferSize) []
    rwa [hData] at hComplete
  obtain ⟨connection, hComplete, hSend⟩ := hSend
  refine ⟨connection, hComplete, ?_⟩
  rw [WorkerModule.returnWorker, hMessages, hSent, List.length_nil, List.getElem?_cons_zero, Option.bind_eq_bind,
    Option.bind_some, hSend]
  rfl

theorem keys_run {σ : State 1 1 1} {csd : Csd 1 1 1}
    (hWork : run (step keysReader WorkerModule.ordersStorage .zero 0 plainHeader) keysAccepted keysWork = some σ)
    (hReturn : WorkerModule.returnWorker plainHeader σ.csd keysCalls = some csd) :
    run (step keysReader WorkerModule.ordersStorage .zero 0 plainHeader) (initial 1 1 1) keysActions =
      some { σ with csd } := by
  rw [keysActions, run_cons, step, inputWorker_carried keysReader_reads Input.keysConnection_carried, keysOrder_request,
    Option.bind_some]
  change run _ keysAccepted (keysWork ++ [.answer keysCalls]) = _
  rw [run_append, hWork, Option.bind_some, run_cons, step, csdStep, hReturn]
  rfl

theorem keys_small : SmallRows .zero WorkerModule.positiveRequest [[1, 0, 0, 0, 7, 8]] := by
  intro row hRow projected hProjected
  obtain rfl := List.mem_singleton.mp hRow
  have hRow : Projection.projectRow .zero WorkerModule.positiveKeys [1, 0, 0, 0, 7, 8] = some [1, 0, 0, 0] := rfl
  obtain rfl := Option.some_inj.mp (hRow.symm.trans hProjected)
  decide

end CsdWorker.Device
