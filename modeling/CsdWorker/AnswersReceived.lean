import CsdWorker.Lib.Forward
import CsdWorker.ProjectionProgress
import CsdWorker.RequestsServed
import CsdWorker.ReturnWorker

/-! # What is sent to the storage engine

The return worker sends the messages of the projection in the order of its queue, one connection for each. In the end
the answers on the connections hold, for each request, the rows that the request asked for.
-/

namespace CsdWorker.Projection

open Memory Run

set_option autoImplicit false

section Keys
variable {n : Nat} {u : KValue} {σ σ' : State n} {w : Fin n}

/-- Every message is filed under the key of a result. -/
def Keyed (σ : State n) : Prop := ∀ m ∈ σ.returned, ∃ work : Work, work.toResult ∈ σ.enqueued ∧ work.key = m.1

theorem keyed_transition (hOrderly : Orderly σ) (h : Keyed σ) (hStep : Transition u σ w σ') : Keyed σ' := by
  have hHand := hOrderly.hands w
  cases hStep with
  | flush work i row hPc hi hRow =>
    rw [hPc] at hHand
    exact List.forall_mem_append.mpr ⟨h, List.forall_mem_singleton.mpr ⟨work, hHand, rfl⟩⟩
  | ship key v todo flag buffer hPc hBuffer =>
    rw [hPc] at hHand
    exact List.forall_mem_append.mpr ⟨h, List.forall_mem_singleton.mpr hHand.2⟩
  | _ => exact h

theorem keyed_run {actions : List (Action n)} (h : run (step u) (initial n) actions = some σ) : Keyed σ := by
  refine (run_preserves (I := fun σ => Orderly σ ∧ Keyed σ) (fun s a s' hs hStep => ⟨orderly_step hs.1 hStep, ?_⟩)
    ⟨orderly_initial, fun _ hm => (nomatch hm)⟩ h).2
  cases a with
  | enqueue result =>
    obtain rfl := Option.some_inj.mp hStep
    intro m hm
    obtain ⟨work, hWork, hKey⟩ := hs.2 m hm
    exact ⟨work, List.mem_append_left _ hWork, hKey⟩
  | work w => exact keyed_transition hs.1 hs.2 (transition_of_workerStep hStep)

theorem snippet_of_returned (hTracked : ∀ snippet, Tracked u snippet σ) (hKeyed : Keyed σ)
    (hResults : Processable u σ.enqueued) {m : String × CsdResult} (hm : m ∈ σ.returned) :
    ∃ work : Work, work.toResult ∈ σ.enqueued ∧ m.2.snippet = some work.snippet := by
  obtain ⟨work, hWork, hKey⟩ := hKeyed m hm
  obtain ⟨-, hNamed⟩ := (hTracked work.snippet).inv (hResults.of_work hWork).2
  exact ⟨work, hWork, hNamed.messages m hm hKey.symm⟩

end Keys

section Returned
variable {n : Nat} {u : KValue} {σ σ' : State n} {w : Fin n}

theorem returned_of_transition (h : Transition u σ w σ') : σ.returned <+: σ'.returned := by
  cases h with
  | flush work i row hPc hi hRow => exact List.prefix_append _ _
  | ship key v todo flag buffer hPc hBuffer => exact List.prefix_append _ _
  | _ => exact List.prefix_rfl

/-- A run hands over what its actions enqueue. -/
theorem mem_enqueued_of_run {actions : List (Action n)} {result : CsdResult} (h : run (step u) σ actions = some σ')
    (hResult : Action.enqueue result ∈ actions) : result ∈ σ'.enqueued := by
  induction actions generalizing σ with
  | nil => cases hResult
  | cons a actions ih =>
    rw [run_cons] at h
    obtain ⟨t, hFirst, hRest⟩ := Option.bind_eq_some_iff.mp h
    obtain rfl | hLater := List.mem_cons.mp hResult
    · obtain rfl := Option.some_inj.mp hFirst
      have hKept : (enqueueProjection σ result).enqueued <+: σ'.enqueued :=
        run_preserves (I := fun s => (enqueueProjection σ result).enqueued <+: s.enqueued)
          (fun _ _ _ hs hStep => hs.trans (enqueued_of_step hStep)) List.prefix_rfl hRest
      exact hKept.subset (List.mem_append_right _ List.mem_cons_self)
    · exact ih hRest hLater

end Returned

end CsdWorker.Projection

namespace CsdWorker.WorkerModule

open Memory Run Scan Endian
open Pipeline (Flow ProjectionReachable deliverable)
open Projection (Snippet.key blockSum messagesFor projectRow resultsOf)
open Json (Tree)
open Return (Answer Calls Carries Connection Delivers answerOf sendData)

set_option autoImplicit false

/-- The module with its return worker. -/
structure Csd (k m n : Nat) where
  worker : State k m n
  sent : List Connection

inductive CsdAction (k m n : Nat) where
  | work (a : Action k m n)
  | answer (calls : Calls)

section Steps
variable {k m n : Nat} (storage : Storage) (u : KValue) (depth : Nat) (write : Tree → Bytes) (σ : Csd k m n)

def csdInitial (k m n : Nat) : Csd k m n := ⟨initial k m n, []⟩

/-- The messages before the first that is not sent have left the return queue. -/
def returnWorker (calls : Calls) : Option (Csd k m n) := do
  let message ← σ.worker.layers.projection.returned[σ.sent.length]?
  let connection ← sendData write message.2 calls
  pure { σ with sent := σ.sent ++ [connection] }

def csdStep : CsdAction k m n → Option (Csd k m n)
  | .work a => (step storage u depth σ.worker a).map fun worker => { σ with worker }
  | .answer calls => returnWorker write σ calls

/-- No worker of any layer can move. -/
def Still : Prop := Quiet storage u depth σ.worker ∧ ∀ calls, returnWorker write σ calls = none

end Steps

section Sent
variable {k m n : Nat} {storage : Storage} {u : KValue} {depth : Nat} {write : Tree → Bytes}

theorem returned_of_step {σ σ' : State k m n} {a : Action k m n} (h : step storage u depth σ a = some σ') :
    σ.layers.projection.returned <+: σ'.layers.projection.returned := by
  cases moves_of_step h with
  | receive request => exact List.prefix_rfl
  | start j request queue batches hIdle hQueue hScan => exact List.prefix_rfl
  | hand j o batches hPc =>
    obtain ⟨sink, result⟩ := o
    cases sink with
    | projection => exact List.prefix_rfl
    | filter => exact List.prefix_rfl
  | filter v layers hFilter =>
    unfold Pipeline.filterWorker at hFilter
    split at hFilter
    · split at hFilter
      · cases hFilter
      · obtain rfl := Option.some_inj.mp hFilter
        exact List.prefix_rfl
    · obtain ⟨filtered, -, hEnd⟩ := Option.bind_eq_some_iff.mp hFilter
      obtain rfl := Option.some_inj.mp hEnd
      exact List.prefix_rfl
  | project w layers hProject =>
    obtain ⟨projection, hWorker, hEnd⟩ := Option.bind_eq_some_iff.mp hProject
    obtain rfl := Option.some_inj.mp hEnd
    exact Projection.returned_of_transition (Projection.transition_of_workerStep hWorker)

/-- The connection is that of the message. -/
def SentAs (write : Tree → Bytes) (message : String × CsdResult) (connection : Connection) : Prop :=
  ∃ calls, sendData write message.2 calls = some connection

structure SentInOrder (storage : Storage) (u : KValue) (depth : Nat) (write : Tree → Bytes) (σ : Csd k m n) :
    Prop where
  reachable : ∃ actions, run (step storage u depth) (initial k m n) actions = some σ.worker
  sent : Forward.Forwarded (SentAs write) σ.worker.layers.projection.returned σ.sent

theorem sentInOrder_step {σ σ' : Csd k m n} {a : CsdAction k m n} (h : SentInOrder storage u depth write σ)
    (hStep : csdStep storage u depth write σ a = some σ') : SentInOrder storage u depth write σ' := by
  obtain ⟨⟨actions, hRun⟩, hSent⟩ := h
  cases a with
  | work a =>
    obtain ⟨worker, hWorker, rfl⟩ := Option.map_eq_some_iff.mp hStep
    refine ⟨⟨actions ++ [a], ?_⟩, Forward.Forwarded.grow hSent (returned_of_step hWorker)⟩
    rw [run_append, hRun, Option.bind_some, run_cons, hWorker]
    rfl
  | answer calls =>
    obtain ⟨message, hMessage, hBody⟩ := Option.bind_eq_some_iff.mp hStep
    obtain ⟨connection, hConnection, hEnd⟩ := Option.bind_eq_some_iff.mp hBody
    obtain rfl := Option.some_inj.mp hEnd
    exact ⟨⟨actions, hRun⟩, Forward.Forwarded.next hSent hMessage ⟨calls, hConnection⟩⟩

theorem sentInOrder_run {σ : Csd k m n} {actions : List (CsdAction k m n)}
    (h : run (csdStep storage u depth write) (csdInitial k m n) actions = some σ) :
    SentInOrder storage u depth write σ :=
  run_preserves (fun _ _ _ hs hStep => sentInOrder_step hs hStep) ⟨⟨[], rfl⟩, Forward.forwarded_nil⟩ h

end Sent

section Answers
variable {write : Tree → Bytes}

def answerTo (message : String × CsdResult) : Option Answer :=
  message.2.snippet.map fun snippet => answerOf snippet message.2.data

/-- The answer has the ids of the request. -/
def ofRequest (request : Request) (answer : Answer) : Bool :=
  answer.snippet.queryId = request.snippet.queryId ∧ answer.snippet.workId = request.snippet.workId

/-- The connections carry the answers of the messages. -/
theorem carries_of_sent {done : List (String × CsdResult)} {sent : List Connection}
    (hSent : List.Forall₂ (SentAs write) done sent) (hOk : ∀ m ∈ done, Projection.MessageOk m.2.data) :
    List.Forall₂ (Carries write) (done.filterMap answerTo) sent := by
  induction hSent with
  | nil => exact .nil
  | @cons m connection done sent hFirst hRest ih =>
    obtain ⟨hMessage, hMessages⟩ := List.forall_mem_cons.mp hOk
    obtain ⟨calls, hCalls⟩ := hFirst
    obtain ⟨snippet, hSnippet, -⟩ := Option.bind_eq_some_iff.mp hCalls
    have hAnswer : answerTo m = some (answerOf snippet m.2.data) := by rw [answerTo, hSnippet, Option.map_some]
    rw [List.filterMap_cons_some hAnswer]
    exact .cons (Return.carries_answerOf hSnippet hMessage hCalls) (ih hMessages)

end Answers

section Requests
variable {k m n : Nat} {storage : Storage} {u : KValue} {depth : Nat} {write : Tree → Bytes} {σ : State k m n}
variable {request : Request} {rows : Request → List Bytes}

/-- No projected row is longer than a buffer. -/
def SmallRows (u : KValue) (request : Request) (rows : List Bytes) : Prop :=
  ∀ row ∈ rows, ∀ projected ∈ projectRow u request.snippet row, projected.length ≤ bufferSize

section Received
variable (hSourced : Sourced storage u depth σ)
variable (hServable : ∀ request ∈ σ.received, Servable storage u depth request (rows request))
variable (hSmall : ∀ request ∈ σ.received, SmallRows u request (rows request))

include hSourced hServable in
/-- What the projection is given is one of the batches of a request, without the rows that the filter drops. -/
theorem enqueued_of_request {result : CsdResult} (h : result ∈ σ.layers.projection.enqueued) :
    ∃ request ∈ σ.received, result.snippet = some request.snippet ∧ ∀ row ∈ result.data.rows, row ∈ rows request := by
  obtain ⟨o, ⟨request, hRequest, ho⟩, hPass⟩ := hSourced.enqueued result h
  have hServed := hServable request hRequest
  have hBatch := hServed.scanBatch o ho
  refine ⟨request, hRequest, (Pipeline.passOn_own hBatch.own hPass).1, fun row hRow => ?_⟩
  rw [Pipeline.passOn_rows hBatch hPass] at hRow
  exact hServed.mem_rows ho (List.mem_filter.mp hRow).1

include hSourced hServable hSmall in
theorem messageOk_of_returned (hReachable : ProjectionReachable u σ.layers.projection) :
    ∀ m ∈ σ.layers.projection.returned, Projection.MessageOk m.2.data := by
  obtain ⟨actions, hRun⟩ := hReachable
  refine (Projection.fits_run (fun action hAction result hResult snippet hSnippet i hi row hRow => ?_) hRun).messages
  have hEnqueued := Projection.mem_enqueued_of_run hRun (hResult ▸ hAction)
  obtain ⟨request, hRequest, hOwn, hRows⟩ := enqueued_of_request hSourced hServable hEnqueued
  obtain rfl : request.snippet = snippet := Option.some_inj.mp (hOwn.symm.trans hSnippet)
  have hMem : result.data.rowAt i ∈ result.data.rows := List.mem_map.mpr ⟨i, List.mem_range.mpr hi, rfl⟩
  exact hSmall request hRequest _ (hRows _ hMem) row hRow

include hSourced hServable in
theorem request_of_returned (hFlowing : ∀ snippet, Flowing storage u depth snippet σ) (hIds : DistinctIds σ.received)
    (hReachable : ProjectionReachable u σ.layers.projection) :
    ∀ m ∈ σ.layers.projection.returned, ∃ request ∈ σ.received, m.2.snippet = some request.snippet := by
  intro m hm
  obtain ⟨actions, hRun⟩ := hReachable
  obtain ⟨work, hWork, hSnippet⟩ := Projection.snippet_of_returned (fun _ => Projection.tracked_run hRun)
    (Projection.keyed_run hRun) (processable hFlowing hIds hSourced hServable) hm
  obtain ⟨request, hRequest, hOwn, -⟩ := enqueued_of_request hSourced hServable hWork
  exact ⟨request, hRequest, hSnippet.trans hOwn⟩

end Received

/-- The answers with the ids of a request are those of its messages. -/
theorem filter_answers {requests : List Request} (hIds : DistinctIds requests) (hRequest : request ∈ requests)
    {messages : List (String × CsdResult)}
    (hMessages : ∀ m ∈ messages, ∃ request ∈ requests, m.2.snippet = some request.snippet) :
    (messages.filterMap answerTo).filter (ofRequest request) =
      (messagesFor request.snippet messages).map fun m => answerOf request.snippet m.data := by
  induction messages with
  | nil => rfl
  | cons m messages ih =>
    obtain ⟨hFirst, hRest⟩ := List.forall_mem_cons.mp hMessages
    obtain ⟨other, hOther, hSnippet⟩ := hFirst
    have hAnswer : answerTo m = some (answerOf other.snippet m.2.data) := by
      rw [answerTo, hSnippet, Option.map_some]
    have hOf : ofRequest request (answerOf other.snippet m.2.data) = true ↔ SameIds other.snippet request.snippet :=
      decide_eq_true_iff
    rw [List.filterMap_cons_some hAnswer]
    obtain hSame | hne := eq_or_ne other.snippet request.snippet
    · have hCons : messagesFor request.snippet (m :: messages) = m.2 :: messagesFor request.snippet messages :=
        by simp [messagesFor, resultsOf, hSnippet, hSame]
      rw [List.filter_cons_of_pos (hOf.mpr (hSame ▸ ⟨rfl, rfl⟩)), ih hRest, hCons, List.map_cons, hSame]
    · have hCons : messagesFor request.snippet (m :: messages) = messagesFor request.snippet messages :=
        by simp [messagesFor, resultsOf, hSnippet, hne]
      have hApart : ¬SameIds other.snippet request.snippet :=
        fun h => hne ((requestsOf_eq_singleton hIds hRequest).2 other hOther h)
      rw [List.filter_cons_of_neg fun h => hApart (hOf.mp h), ih hRest, hCons]

theorem rows_answers (snippet : Snippet) (messages : List CsdResult) :
    (messages.map fun m => answerOf snippet m.data).flatMap Answer.rows = messages.flatMap fun m =>
      m.data.messageRows := by
  rw [List.flatMap_map]
  rfl

theorem blocks_answers (snippet : Snippet) {messages : List CsdResult}
    (hFits : ∀ m ∈ messages, Fits 4 m.data.currentBlockCount) :
    ((messages.map fun m => answerOf snippet m.data).map fun answer => answer.currentBlockCount.val).sum =
      blockSum messages := by
  rw [List.map_map, blockSum]
  exact congrArg List.sum (List.map_congr_left fun m hm => wrap_of_fits (hFits m hm))

/-- The rows in the messages so far are some of those that the request asks for. -/
theorem messageRows_le (hTracked : Projection.Tracked u request.snippet σ.layers.projection) {scanned : List Bytes}
    (hServed : Servable storage u depth request scanned) {rest : List Enqueued}
    (hFlow : Flow u depth request.snippet (batchesOf storage request) { σ.layers with scanning := rest }) :
    (((messagesFor request.snippet σ.layers.projection.returned).flatMap fun m => m.data.messageRows : List Bytes) :
      Multiset Bytes) ≤ (deliverable u depth request.snippet scanned : List Bytes) := by
  have hAdmissible :=
    hFlow.admissible (fun o ho => (hServed.scanBatch o ho).own) hServed.scans_batchesOf.counted.neverEarly
  obtain ⟨done, hBatches, hDone⟩ := hFlow.passed
  have hle : (done : Multiset Enqueued) ≤ batchesOf storage request := by
    rw [← hBatches, add_assoc, add_assoc]
    exact Multiset.le_add_right _ _
  have hDelivered : ((Projection.worksOf (Snippet.key request.snippet) σ.layers.projection.enqueued).flatMap
      (Projection.projectedRows u)) = done.flatMap fun o => deliverable u depth request.snippet o.result.data.rows := by
    rw [Projection.worksOf_eq hAdmissible.distinct, List.flatMap_map, List.flatMap_def, List.flatMap_def,
      Pipeline.map_eq_of_map_some hDone fun o ho r hr => ?_]
    rw [Pipeline.projectedRows_eq, Pipeline.passOn_rows (hServed.scanBatch o (Multiset.mem_of_le hle ho)) hr,
      ← deliverable]
  obtain ⟨own, hOwn, hSublist⟩ := Multiset.coe_le.mp hle
  have hScanned :
    ((batchesOf storage request).flatMap fun o => deliverable u depth request.snippet o.result.data.rows).Perm
      (deliverable u depth request.snippet scanned) := by
    rw [← Pipeline.deliverable_flatMap]
    exact (hServed.scans_batchesOf.rows.filter _).filterMap _
  rw [Projection.messagesFor_eq hTracked.good (hTracked.inv hAdmissible).2, ← Multiset.coe_eq_coe.mpr hScanned]
  refine (Projection.messages_le hTracked _).trans ?_
  rw [hDelivered, ← Multiset.coe_eq_coe.mpr (hOwn.flatMap_right _)]
  exact Multiset.coe_le.mpr (hSublist.flatMap _).subperm

theorem blockSum_of_drained {scanned : List Bytes} (hServed : Servable storage u depth request scanned)
    (hFlow : Flow u depth request.snippet (batchesOf storage request) { σ.layers with scanning := [] })
    (hDrained : Pipeline.Drained request.snippet { σ.layers with scanning := [] }) :
    blockSum (resultsOf request.snippet σ.layers.projection.enqueued) = request.snippet.resultInfo.csdBlockCount := by
  obtain ⟨done, hPerm, hDone⟩ := Pipeline.done_of_drained hFlow hDrained
  have hOwn : ∀ o ∈ done, o.result.snippet = some request.snippet :=
    fun o ho => (hServed.scanBatch o (hPerm.subset ho)).own
  rw [blockSum, Pipeline.map_eq_of_map_some hDone fun o ho r hr => (Pipeline.passOn_own (hOwn o ho) hr).2,
    (hPerm.map Pipeline.blocksOf).sum_eq]
  exact hServed.scans_batchesOf.counted.blocks

/-- The blocks in the messages are all that the request was counted for. -/
theorem messageBlocks_of_drained (hTracked : Projection.Tracked u request.snippet σ.layers.projection)
    {scanned : List Bytes} (hServed : Servable storage u depth request scanned)
    (hFlow : Flow u depth request.snippet (batchesOf storage request) { σ.layers with scanning := [] })
    (hDrained : Pipeline.Drained request.snippet { σ.layers with scanning := [] }) :
    blockSum (messagesFor request.snippet σ.layers.projection.returned) =
      request.snippet.resultInfo.csdBlockCount := by
  have hCounted := blockSum_of_drained hServed hFlow hDrained
  have hAdmissible :=
    hFlow.admissible (fun o ho => (hServed.scanBatch o ho).own) hServed.scans_batchesOf.counted.neverEarly
  have hAccounted := Projection.accounted_of_settled hTracked hAdmissible hCounted hDrained.projection
  exact hAccounted.blocks.trans hCounted

theorem sent_of_still {τ : Csd k m n} (hSent : SentInOrder storage u depth write τ)
    (hStill : Still storage u depth write τ)
    (hMessages : ∀ m ∈ τ.worker.layers.projection.returned, ∃ snippet, m.2.snippet = some snippet) :
    List.Forall₂ (SentAs write) τ.worker.layers.projection.returned τ.sent := by
  refine Forward.Forwarded.all hSent.sent ?_
  cases hNext : τ.worker.layers.projection.returned[τ.sent.length]? with
  | none => rfl
  | some message =>
    -- the message has a snippet, so the return worker could send it
    obtain ⟨snippet, hSnippet⟩ := hMessages message (List.mem_of_getElem? hNext)
    have hStuck := hStill.2 (Return.wholeCalls 0 0 [])
    rw [returnWorker, hNext] at hStuck
    simp [sendData, hSnippet] at hStuck

end Requests

/-- The connections carry answers. Those with the ids of a request are its own, and hold at no time a row twice or one
that it did not ask for. When no worker can move they hold all of the rows, and their block counts make up the count of
the request. A connection on which nothing was lost delivers its answer. -/
structure Answered (write : Tree → Bytes) (u : KValue) (depth : Nat) (request : Request) (rows : List Bytes)
    (still : Prop) (answers : List Answer) (sent : List Connection) : Prop where
  carried : List.Forall₂ (Carries write) answers sent
  delivered : (∀ c ∈ sent, c.complete = true) → List.Forall₂ (Delivers write) answers sent
  own : ∀ answer ∈ answers, SameIds answer.snippet request.snippet → answer.snippet = request.snippet
  rows_le : (((answers.filter (ofRequest request)).flatMap Answer.rows : List Bytes) : Multiset Bytes) ≤
    (deliverable u depth request.snippet rows : List Bytes)
  rows_perm :
    still → ((answers.filter (ofRequest request)).flatMap Answer.rows).Perm (deliverable u depth request.snippet rows)
  blocks : still → ((answers.filter (ofRequest request)).map fun answer => answer.currentBlockCount.val).sum =
    request.snippet.resultInfo.csdBlockCount

theorem answers_of_run {k m n : Nat} {storage : Storage} {u : KValue} {depth : Nat} {write : Tree → Bytes}
    (rows : Request → List Bytes) {σ : Csd k m n} {actions : List (CsdAction k m n)} (hk : 0 < k) (hm : 0 < m)
    (hn : 0 < n) (hRun : run (csdStep storage u depth write) (csdInitial k m n) actions = some σ)
    (hIds : DistinctIds σ.worker.received)
    (hServable : ∀ request ∈ σ.worker.received, Servable storage u depth request (rows request))
    (hSmall : ∀ request ∈ σ.worker.received, SmallRows u request (rows request))
    (hBlocks : ∀ m ∈ σ.worker.layers.projection.returned, Fits 4 m.2.data.currentBlockCount) {request : Request}
    (hRequest : request ∈ σ.worker.received) :
    ∃ answers, Answered write u depth request (rows request) (Still storage u depth write σ) answers σ.sent := by
  have hInOrder := sentInOrder_run hRun
  obtain ⟨workActions, hWork⟩ := hInOrder.reachable
  obtain ⟨done, rest, hReturned, hSent⟩ := hInOrder.sent
  have hSourced := sourced_run hWork
  have hFlowing := flowing_run hWork
  have hReachable := projectionReachable_run hWork
  have hServed := hServable request hRequest
  have hOk := messageOk_of_returned hSourced hServable hSmall hReachable
  have hMessages := request_of_returned hSourced hServable hFlowing hIds hReachable
  have hSub : ∀ m ∈ done, m ∈ σ.worker.layers.projection.returned := fun m hm => hReturned ▸ List.mem_append_left _ hm
  have hAnswers := filter_answers hIds hRequest fun m hm => hMessages m (hSub m hm)
  have hCarried := carries_of_sent hSent fun m hm => hOk m (hSub m hm)
  -- when nothing moves any more, all messages have been sent
  have hAll : Still storage u depth write σ → done = σ.worker.layers.projection.returned := by
    intro hStill
    refine Forward.done_eq_source (sent_of_still hInOrder hStill fun m hm => ?_) hReturned hSent
    obtain ⟨r, -, hSnippet⟩ := hMessages m hm
    exact ⟨r.snippet, hSnippet⟩
  refine ⟨done.filterMap answerTo,
    { carried := hCarried
      delivered := fun hComplete => ?_
      own := fun answer hAnswer hSame => ?_
      rows_le := ?_
      rows_perm := fun hStill => ?_
      blocks := fun hStill => ?_ }⟩
  · exact Forward.forall₂_of_forall_sent hCarried hComplete Carries.delivers
  · obtain ⟨m, hm, hOwn⟩ := List.mem_filterMap.mp hAnswer
    obtain ⟨other, hOther, hSnippet⟩ := hMessages m (hSub m hm)
    rw [answerTo, hSnippet, Option.map_some] at hOwn
    obtain rfl := Option.some_inj.mp hOwn
    exact (requestsOf_eq_singleton hIds hRequest).2 other hOther hSame
  · obtain ⟨rest, -, hFlow⟩ := flow_of_received hFlowing hIds hRequest
    obtain ⟨projectionActions, hProjection⟩ := hReachable
    refine le_trans ?_ (messageRows_le (Projection.tracked_run hProjection) hServed hFlow)
    rw [hAnswers, rows_answers]
    have hDone : done.Sublist σ.worker.layers.projection.returned := hReturned ▸ List.sublist_append_left _ _
    exact Multiset.coe_le.mpr (((hDone.map _).filter _).flatMap _).subperm
  · obtain ⟨hFlow, hDrained⟩ :=
      drained_of_quiet hFlowing hIds hSourced hServable hStill.1 hk hm hn hReachable hRequest
    rw [hAnswers, rows_answers, hAll hStill]
    exact (hServed.outcome hFlow hReachable hDrained).rows_perm
  · obtain ⟨hFlow, hDrained⟩ :=
      drained_of_quiet hFlowing hIds hSourced hServable hStill.1 hk hm hn hReachable hRequest
    obtain ⟨projectionActions, hProjection⟩ := hReachable
    rw [hAnswers, hAll hStill, blocks_answers _ fun m hm => ?_]
    · exact messageBlocks_of_drained (Projection.tracked_run hProjection) hServed hFlow hDrained
    · obtain ⟨message, hMessage, rfl⟩ := List.mem_map.mp (List.mem_filter.mp hm).1
      exact hBlocks message hMessage

end CsdWorker.WorkerModule
