import CsdWorker.ScanRequest

/-! # All layers of the worker module

`main` starts a thread for the input, and several for each of the scan, the filter and the projection. A run is any
interleaving of their steps while snippets are received. What the layers do for one snippet is a run of its pipeline, in
which the batches of all other snippets come from elsewhere.
-/

namespace CsdWorker.WorkerModule

open Memory Run Scan
open Pipeline (Flow ProjectionReachable)
open Projection (resultsOf)

set_option autoImplicit false

/-- A scan worker waits, or has batches left to hand on. `received` records what has been received. -/
structure State (k m n : Nat) where
  scanQueue : List Request
  scanPc : Fin k → List Enqueued
  layers : Pipeline.State m n
  received : List Request

def initial (k m n : Nat) : State k m n := ⟨[], fun _ => [], Pipeline.initial m n [], []⟩

inductive Action (k m n : Nat) where
  | receive (request : Request)
  | scan (j : Fin k)
  | filter (v : Fin m)
  | project (w : Fin n)

section Steps
variable {k m n : Nat} (storage : Storage) (u : KValue) (depth : Nat) (σ : State k m n)

def enqueueScan (request : Request) : State k m n :=
  { σ with scanQueue := σ.scanQueue ++ [request], received := σ.received ++ [request] }

def startScan (j : Fin k) (queue : List Request) (batches : List Enqueued) : State k m n :=
  { σ with scanQueue := queue, scanPc := Function.update σ.scanPc j batches }

def handOn (j : Fin k) (o : Enqueued) (batches : List Enqueued) : State k m n :=
  { σ with scanPc := Function.update σ.scanPc j batches, layers := Pipeline.enqueue σ.layers o }

def scanStep (j : Fin k) : Option (State k m n) :=
  match σ.scanPc j with
  | o :: batches => some (handOn σ j o batches)
  | [] =>
    match σ.scanQueue with
    | [] => none
    | request :: queue => do
      let batches ← scanWorker storage request
      pure (startScan σ j queue batches)

def step : Action k m n → Option (State k m n)
  | .receive request => some (enqueueScan σ request)
  | .scan j => scanStep storage σ j
  | .filter v => (Pipeline.filterWorker u depth σ.layers v).map fun layers => { σ with layers }
  | .project w => (Pipeline.projectionStep u σ.layers w).map fun layers => { σ with layers }

end Steps

section Moves
variable {k m n : Nat} {storage : Storage} {u : KValue} {depth : Nat} {σ σ' : State k m n} {a : Action k m n}

inductive Moves (storage : Storage) (u : KValue) (depth : Nat) (σ : State k m n) :
    Action k m n → State k m n → Prop where
  | receive (request : Request) : Moves storage u depth σ (.receive request) (enqueueScan σ request)
  | start (j : Fin k) (request : Request) (queue : List Request) (batches : List Enqueued) (hIdle : σ.scanPc j = [])
      (hQueue : σ.scanQueue = request :: queue) (hScan : scanWorker storage request = some batches) :
    Moves storage u depth σ (.scan j) (startScan σ j queue batches)
  | hand (j : Fin k) (o : Enqueued) (batches : List Enqueued) (hPc : σ.scanPc j = o :: batches) :
    Moves storage u depth σ (.scan j) (handOn σ j o batches)
  | filter (v : Fin m) (layers : Pipeline.State m n)
      (hStep : Pipeline.filterWorker u depth σ.layers v = some layers) :
    Moves storage u depth σ (.filter v) { σ with layers }
  | project (w : Fin n) (layers : Pipeline.State m n) (hStep : Pipeline.projectionStep u σ.layers w = some layers) :
    Moves storage u depth σ (.project w) { σ with layers }

theorem moves_of_step (h : step storage u depth σ a = some σ') : Moves storage u depth σ a σ' := by
  cases a with
  | receive request =>
    obtain rfl := Option.some_inj.mp h
    exact .receive request
  | scan j =>
    rw [step, scanStep] at h
    split at h
    · rename_i o batches hPc
      obtain rfl := Option.some_inj.mp h
      exact .hand j o batches hPc
    · rename_i hIdle
      split at h
      · cases h
      · rename_i request queue hQueue
        obtain ⟨batches, hScan, hEnd⟩ := Option.bind_eq_some_iff.mp h
        obtain rfl := Option.some_inj.mp hEnd
        exact .start j request queue batches hIdle hQueue hScan
  | filter v =>
    obtain ⟨layers, hStep, rfl⟩ := Option.map_eq_some_iff.mp h
    exact .filter v layers hStep
  | project w =>
    obtain ⟨layers, hStep, rfl⟩ := Option.map_eq_some_iff.mp h
    exact .project w layers hStep

/-- The projection of the module does what the projection layer alone can do. -/
theorem projectionReachable_step (h : ProjectionReachable u σ.layers.projection)
    (hStep : step storage u depth σ a = some σ') : ProjectionReachable u σ'.layers.projection := by
  cases moves_of_step hStep with
  | receive request => exact h
  | start j request queue batches hIdle hQueue hScan => exact h
  | hand j o batches hPc => exact Pipeline.projectionReachable_enqueue h o
  | filter v layers hFilter =>
    have hLayers : Pipeline.step u depth σ.layers (.filter v) = some layers := hFilter
    exact Pipeline.projectionReachable_step h hLayers
  | project w layers hProject =>
    have hLayers : Pipeline.step u depth σ.layers (.project w) = some layers := hProject
    exact Pipeline.projectionReachable_step h hLayers

theorem projectionReachable_run {actions : List (Action k m n)}
    (h : run (step storage u depth) (initial k m n) actions = some σ) : ProjectionReachable u σ.layers.projection :=
  run_preserves (I := fun σ => ProjectionReachable u σ.layers.projection)
    (fun _ _ _ hs hStep => projectionReachable_step hs hStep) ⟨[], rfl⟩ h

end Moves

section Layers
variable {m n : Nat} {u : KValue} {depth : Nat} {snippet : Snippet} {batches : List Enqueued}
    {τ τ' : Pipeline.State m n}

/-- The layers behind the scan do not look at the batches that are to come. -/
theorem enqueue_scanning (rest : List Enqueued) (o : Enqueued) :
    Pipeline.enqueue { τ with scanning := rest } o = { Pipeline.enqueue τ o with scanning := rest } := by
  unfold Pipeline.enqueue
  split <;> rfl

theorem filterWorker_scanning (rest : List Enqueued) {v : Fin m} (h : Pipeline.filterWorker u depth τ v = some τ') :
    Pipeline.filterWorker u depth { τ with scanning := rest } v = some { τ' with scanning := rest } := by
  unfold Pipeline.filterWorker at h ⊢
  cases hPc : τ.filterPc v with
  | none =>
    rw [hPc] at h
    cases hQueue : τ.filterQueue with
    | nil =>
      rw [hQueue] at h
      cases h
    | cons result queue =>
      rw [hQueue] at h
      obtain rfl := Option.some_inj.mp h
      rfl
  | some result =>
    rw [hPc] at h
    obtain ⟨filtered, hFiltered, hEnd⟩ := Option.bind_eq_some_iff.mp h
    obtain rfl := Option.some_inj.mp hEnd
    simp only [hFiltered]
    rfl

theorem projectionStep_scanning (rest : List Enqueued) {w : Fin n} (h : Pipeline.projectionStep u τ w = some τ') :
    Pipeline.projectionStep u { τ with scanning := rest } w = some { τ' with scanning := rest } := by
  obtain ⟨projection, hWorker, hEnd⟩ := Option.bind_eq_some_iff.mp h
  obtain rfl := Option.some_inj.mp hEnd
  simp only [Pipeline.projectionStep, hWorker]
  rfl

theorem Flow.perm {rest rest' : List Enqueued} (h : Flow u depth snippet batches { τ with scanning := rest })
    (hPerm : rest.Perm rest') : Flow u depth snippet batches { τ with scanning := rest' } := by
  obtain ⟨hKnown, hOwn, done, hBatches, hDone⟩ := h
  refine ⟨hKnown, fun o ho => hOwn o (hPerm.symm.subset ho), done, ?_, hDone⟩
  rw [← hBatches]
  exact congrArg _ (Multiset.coe_eq_coe.mpr hPerm.symm)

theorem Flow.extend {rest more : List Enqueued} (h : Flow u depth snippet batches { τ with scanning := rest })
    (hMore : ∀ o ∈ more, o.result.snippet = some snippet) :
    Flow u depth snippet (batches ++ more) { τ with scanning := rest ++ more } := by
  obtain ⟨hKnown, hOwn, done, hBatches, hDone⟩ := h
  refine ⟨hKnown, List.forall_mem_append.mpr ⟨hOwn, hMore⟩, done, ?_, hDone⟩
  change _ + ((rest ++ more : List Enqueued) : Multiset Enqueued) =
    ((batches ++ more : List Enqueued) : Multiset Enqueued)
  rw [← Multiset.coe_add, ← Multiset.coe_add, ← hBatches, ← add_assoc]

end Layers

section Accounts
variable {k m n : Nat} (storage : Storage) (snippet : Snippet) (σ : State k m n)

def batchesOf (request : Request) : List Enqueued := (scanWorker storage request).getD []

def requestsOf (requests : List Request) : List Request := requests.filter fun request => request.snippet = snippet

def ownBatches (batches : List Enqueued) : List Enqueued := batches.filter fun o => o.result.snippet = some snippet

/-- The batches of the requests for the snippet that have been received. -/
def expected : List Enqueued := (requestsOf snippet σ.received).flatMap (batchesOf storage)

/-- Those of them that have not been handed on. -/
def pending : Multiset Enqueued :=
  ((requestsOf snippet σ.scanQueue).flatMap (batchesOf storage) : List Enqueued) +
    ∑ j, (ownBatches snippet (σ.scanPc j) : Multiset Enqueued)

def SameIds (a b : Snippet) : Prop := a.queryId = b.queryId ∧ a.workId = b.workId

/-- No other snippet of the requests has the ids of this one. -/
def Distinct (requests : List Request) : Prop :=
  ∀ request ∈ requests, SameIds request.snippet snippet → request.snippet = snippet

/-- The batch is one that the scan of a received request hands on. -/
def Comes (o : Enqueued) : Prop := ∃ request ∈ σ.received, o ∈ batchesOf storage request

end Accounts

section Pending
variable {k m n : Nat} {storage : Storage} {snippet : Snippet} {σ : State k m n} {request : Request}
    {batches : List Enqueued}

theorem snippet_of_mem_batchesOf {o : Enqueued} (h : o ∈ batchesOf storage request) :
    o.result.snippet = some request.snippet := by
  unfold batchesOf at h
  cases hScan : scanWorker storage request with
  | none =>
    rw [hScan] at h
    cases h
  | some batches =>
    rw [hScan] at h
    exact (scanWorker_handsOn hScan o h).scanBatch.own

theorem ownBatches_batchesOf (snippet : Snippet) (request : Request) :
    ownBatches snippet (batchesOf storage request) = if request.snippet =
      snippet then batchesOf storage request else [] := by
  split
  · rename_i hOwn
    refine List.filter_eq_self.mpr fun o ho => ?_
    rw [snippet_of_mem_batchesOf ho, hOwn]
    exact decide_eq_true rfl
  · rename_i hOther
    refine List.filter_eq_nil_iff.mpr fun o ho => ?_
    rw [snippet_of_mem_batchesOf ho]
    simpa using hOther

theorem requestsOf_append (requests more : List Request) :
    requestsOf snippet (requests ++ more) = requestsOf snippet requests ++ requestsOf snippet more :=
  List.filter_append _ _

theorem requestsOf_singleton (snippet : Snippet) (request : Request) :
    (requestsOf snippet [request]).flatMap (batchesOf storage) = ownBatches snippet (batchesOf storage request) := by
  rw [ownBatches_batchesOf]
  split
  · rename_i hOwn
    simp [requestsOf, hOwn]
  · rename_i hOther
    simp [requestsOf, hOther]

theorem ownBatches_append (batches more : List Enqueued) :
    ownBatches snippet (batches ++ more) = ownBatches snippet batches ++ ownBatches snippet more :=
  List.filter_append _ _

theorem ownBatches_own {o : Enqueued} (h : o ∈ ownBatches snippet batches) : o.result.snippet = some snippet :=
  of_decide_eq_true (List.mem_filter.mp h).2

theorem pending_enqueueScan (snippet : Snippet) (σ : State k m n) (request : Request) :
    pending storage snippet (enqueueScan σ request) =
      pending storage snippet σ + ownBatches snippet (batchesOf storage request) := by
  simp only [pending, enqueueScan, requestsOf_append, List.flatMap_append, requestsOf_singleton, ← Multiset.coe_add]
  exact add_right_comm _ _ _

theorem expected_enqueueScan (snippet : Snippet) (σ : State k m n) (request : Request) :
    expected storage snippet (enqueueScan σ request) =
      expected storage snippet σ ++ ownBatches snippet (batchesOf storage request) := by
  simp only [expected, enqueueScan, requestsOf_append, List.flatMap_append, requestsOf_singleton]

theorem pending_startScan {j : Fin k} {queue : List Request} (hIdle : σ.scanPc j = [])
    (hQueue : σ.scanQueue = request :: queue) (hScan : scanWorker storage request = some batches) :
    pending storage snippet (startScan σ j queue batches) = pending storage snippet σ := by
  have hSum := Quota.sum_update_add (fun b => (ownBatches snippet b : Multiset Enqueued)) σ.scanPc j batches
  simp only [hIdle, show ownBatches snippet [] = [] from rfl, Multiset.coe_nil, add_zero] at hSum
  have hBatches : batchesOf storage request = batches := by rw [batchesOf, hScan, Option.getD_some]
  rw [pending, pending, hQueue, ← List.singleton_append, requestsOf_append, List.flatMap_append, requestsOf_singleton,
    hBatches, ← Multiset.coe_add]
  change _ + ∑ j', (ownBatches snippet (Function.update σ.scanPc j batches j') : Multiset Enqueued) = _
  rw [hSum]
  change (((requestsOf snippet queue).flatMap (batchesOf storage) : List Enqueued) : Multiset Enqueued) + _ = _
  abel

theorem pending_handOn {j : Fin k} {o : Enqueued} (hPc : σ.scanPc j = o :: batches) :
    pending storage snippet σ = pending storage snippet (handOn σ j o batches) + ownBatches snippet [o] := by
  have hSum := Quota.sum_update_add (fun b => (ownBatches snippet b : Multiset Enqueued)) σ.scanPc j batches
  simp only [hPc] at hSum
  rw [← List.singleton_append, ownBatches_append, ← Multiset.coe_add, ← add_assoc, add_left_inj] at hSum
  rw [pending, ← hSum, ← add_assoc]
  rfl

end Pending

section Sources
variable {k m n : Nat} {storage : Storage} {u : KValue} {depth : Nat} {snippet : Snippet} {σ σ' : State k m n}
variable {request : Request} {batches : List Enqueued} {o : Enqueued}

/-- Where everything in the queues and in the hands of the workers comes from. -/
structure Sourced (storage : Storage) (u : KValue) (depth : Nat) (σ : State k m n) : Prop where
  queue : ∀ request ∈ σ.scanQueue, request ∈ σ.received
  hands : ∀ j, ∀ o ∈ σ.scanPc j, Comes storage σ o
  filterQueue : ∀ result ∈ σ.layers.filterQueue, Comes storage σ ⟨.filter, result⟩
  filterPc : ∀ v, ∀ result ∈ σ.layers.filterPc v, Comes storage σ ⟨.filter, result⟩
  enqueued : ∀ result ∈ σ.layers.projection.enqueued, ∃ o, Comes storage σ o ∧ Pipeline.passOn u depth o = some result

theorem sourced_initial : Sourced storage u depth (initial k m n) where
  queue := fun _ h => nomatch h
  hands := fun _ _ h => nomatch h
  filterQueue := fun _ h => nomatch h
  filterPc := fun _ _ h => nomatch h
  enqueued := fun _ h => nomatch h

theorem sourced_receive (h : Sourced storage u depth σ) (request : Request) :
    Sourced storage u depth (enqueueScan σ request) := by
  have hComes : ∀ o, Comes storage σ o → Comes storage (enqueueScan σ request) o := by
    rintro o ⟨r, hr, ho⟩
    exact ⟨r, List.mem_append_left _ hr, ho⟩
  refine ⟨?_, fun j o ho => hComes o (h.hands j o ho), fun r hr => hComes _ (h.filterQueue r hr),
    fun v r hr => hComes _ (h.filterPc v r hr), fun r hr => ?_⟩
  · exact List.forall_mem_append.mpr ⟨fun r hr => List.mem_append_left _ (h.queue r hr),
      fun _ hr => List.mem_append_right _ hr⟩
  · obtain ⟨o, ho, hPass⟩ := h.enqueued r hr
    exact ⟨o, hComes o ho, hPass⟩

theorem hands_update {j : Fin k} (h : ∀ j, ∀ o ∈ σ.scanPc j, Comes storage σ o)
    (hNew : ∀ o ∈ batches, Comes storage σ o) :
    ∀ j', ∀ o ∈ Function.update σ.scanPc j batches j', Comes storage σ o := by
  intro j' o ho
  obtain rfl | hj := eq_or_ne j' j
  · rw [Function.update_self] at ho
    exact hNew o ho
  · rw [Function.update_of_ne hj] at ho
    exact h j' o ho

theorem sourced_start (h : Sourced storage u depth σ) {j : Fin k} {queue : List Request}
    (hQueue : σ.scanQueue = request :: queue) (hScan : scanWorker storage request = some batches) :
    Sourced storage u depth (startScan σ j queue batches) := by
  have hRequests := h.queue
  rw [hQueue] at hRequests
  obtain ⟨hRequest, hRequests⟩ := List.forall_mem_cons.mp hRequests
  refine ⟨hRequests, hands_update h.hands fun o ho => ?_, h.filterQueue, h.filterPc, h.enqueued⟩
  exact ⟨request, hRequest, by rwa [batchesOf, hScan]⟩

theorem sourced_hand (h : Sourced storage u depth σ) {j : Fin k} (hPc : σ.scanPc j = o :: batches) :
    Sourced storage u depth (handOn σ j o batches) := by
  have hHands := h.hands j
  rw [hPc] at hHands
  obtain ⟨ho, hBatches⟩ := List.forall_mem_cons.mp hHands
  have hAll : Sourced storage u depth { σ with scanPc := Function.update σ.scanPc j batches } :=
    ⟨h.queue, hands_update h.hands hBatches, h.filterQueue, h.filterPc, h.enqueued⟩
  obtain ⟨sink, result⟩ := o
  cases sink with
  | projection =>
    refine ⟨hAll.queue, hAll.hands, hAll.filterQueue, hAll.filterPc, ?_⟩
    exact List.forall_mem_append.mpr ⟨h.enqueued, List.forall_mem_singleton.mpr ⟨_, ho, rfl⟩⟩
  | filter =>
    refine ⟨hAll.queue, hAll.hands, ?_, hAll.filterPc, hAll.enqueued⟩
    exact List.forall_mem_append.mpr ⟨h.filterQueue, List.forall_mem_singleton.mpr ho⟩

theorem sourced_filter (h : Sourced storage u depth σ) {v : Fin m} {layers : Pipeline.State m n}
    (hStep : Pipeline.filterWorker u depth σ.layers v = some layers) : Sourced storage u depth { σ with layers } := by
  have hHands : ∀ hand : Option CsdResult, (∀ result ∈ hand, Comes storage σ ⟨.filter, result⟩) →
      ∀ v', ∀ result ∈ Function.update σ.layers.filterPc v hand v', Comes storage σ ⟨.filter, result⟩ := by
    intro hand hHand v' result hResult
    obtain rfl | hv := eq_or_ne v' v
    · rw [Function.update_self] at hResult
      exact hHand result hResult
    · rw [Function.update_of_ne hv] at hResult
      exact h.filterPc v' result hResult
  unfold Pipeline.filterWorker at hStep
  split at hStep
  · split at hStep
    · cases hStep
    · rename_i result queue hQueue
      obtain rfl := Option.some_inj.mp hStep
      have hResults := h.filterQueue
      rw [hQueue] at hResults
      obtain ⟨hResult, hResults⟩ := List.forall_mem_cons.mp hResults
      refine ⟨h.queue, h.hands, hResults, hHands (some result) fun r hr => ?_, h.enqueued⟩
      obtain rfl := Option.mem_some_iff.mp hr
      exact hResult
  · rename_i result hPc
    obtain ⟨filtered, hFiltered, hEnd⟩ := Option.bind_eq_some_iff.mp hStep
    obtain rfl := Option.some_inj.mp hEnd
    refine ⟨h.queue, h.hands, h.filterQueue, hHands none fun r hr => (nomatch hr), ?_⟩
    exact List.forall_mem_append.mpr ⟨h.enqueued, List.forall_mem_singleton.mpr
      ⟨⟨.filter, result⟩, h.filterPc v result hPc, hFiltered⟩⟩

theorem sourced_project (h : Sourced storage u depth σ) {w : Fin n} {layers : Pipeline.State m n}
    (hStep : Pipeline.projectionStep u σ.layers w = some layers) : Sourced storage u depth { σ with layers } := by
  obtain ⟨projection, hWorker, hEnd⟩ := Option.bind_eq_some_iff.mp hStep
  obtain rfl := Option.some_inj.mp hEnd
  have hEnqueued := Projection.enqueued_of_transition (Projection.transition_of_workerStep hWorker)
  refine ⟨h.queue, h.hands, h.filterQueue, h.filterPc, ?_⟩
  change ∀ result ∈ projection.enqueued, _
  rw [hEnqueued]
  exact h.enqueued

theorem sourced_step {a : Action k m n} (h : Sourced storage u depth σ)
    (hStep : step storage u depth σ a = some σ') : Sourced storage u depth σ' := by
  cases moves_of_step hStep with
  | receive request => exact sourced_receive h request
  | start j request queue batches hIdle hQueue hScan => exact sourced_start h hQueue hScan
  | hand j o batches hPc => exact sourced_hand h hPc
  | filter v layers hFilter => exact sourced_filter h hFilter
  | project w layers hProject => exact sourced_project h hProject

theorem sourced_run {actions : List (Action k m n)}
    (h : run (step storage u depth) (initial k m n) actions = some σ) : Sourced storage u depth σ :=
  run_preserves (fun _ _ _ hs hStep => sourced_step hs hStep) sourced_initial h

theorem Comes.known (h : Comes storage σ o) (hDistinct : Distinct snippet σ.received) :
    Pipeline.Known snippet o.result := by
  obtain ⟨request, hRequest, hBatch⟩ := h
  have hSnippet := snippet_of_mem_batchesOf hBatch
  by_cases hSame : SameIds request.snippet snippet
  · exact Or.inl (hSnippet.trans (congrArg some (hDistinct request hRequest hSame)))
  · refine Or.inr fun other hOther => ?_
    obtain rfl := Option.some_inj.mp (hSnippet.symm.trans hOther)
    exact hSame

end Sources

section Flow
variable {k m n : Nat} {storage : Storage} {u : KValue} {depth : Nat} {snippet : Snippet} {σ σ' : State k m n}
variable {request : Request} {batches : List Enqueued}

/-- The batches of the snippet are in the layers as in a pipeline of its own, up to those that are not handed on yet. -/
def Flowing (storage : Storage) (u : KValue) (depth : Nat) (snippet : Snippet) (σ : State k m n) : Prop :=
  Distinct snippet σ.received → ∃ rest : List Enqueued, (rest : Multiset Enqueued) = pending storage snippet σ ∧
    Flow u depth snippet (expected storage snippet σ) { σ.layers with scanning := rest }

theorem flowing_initial : Flowing storage u depth snippet (initial k m n) := by
  intro _
  refine ⟨[], ?_, Pipeline.flow_initial fun _ h => (nomatch h)⟩
  simp [pending, initial, requestsOf, ownBatches]

theorem flowing_receive (h : Flowing storage u depth snippet σ) (request : Request) :
    Flowing storage u depth snippet (enqueueScan σ request) := by
  intro hDistinct
  obtain ⟨rest, hRest, hFlow⟩ := h fun r hr => hDistinct r (List.mem_append_left _ hr)
  refine ⟨rest ++ ownBatches snippet (batchesOf storage request), ?_, ?_⟩
  · rw [← Multiset.coe_add, hRest, pending_enqueueScan]
  · rw [expected_enqueueScan]
    exact Flow.extend hFlow fun o ho => ownBatches_own ho

theorem flowing_start (h : Flowing storage u depth snippet σ) {j : Fin k} {queue : List Request}
    (hIdle : σ.scanPc j = []) (hQueue : σ.scanQueue = request :: queue)
    (hScan : scanWorker storage request = some batches) :
    Flowing storage u depth snippet (startScan σ j queue batches) := by
  rw [Flowing, pending_startScan hIdle hQueue hScan]
  exact h

theorem flowing_hand (hSourced : Sourced storage u depth σ) (h : Flowing storage u depth snippet σ) {j : Fin k}
    {o : Enqueued} (hPc : σ.scanPc j = o :: batches) : Flowing storage u depth snippet (handOn σ j o batches) := by
  intro hDistinct
  have ho : Comes storage σ o := hSourced.hands j o (hPc ▸ List.mem_cons_self)
  obtain ⟨rest, hRest, hFlow⟩ := h hDistinct
  rw [pending_handOn hPc] at hRest
  obtain hOwn | hForeign := ho.known hDistinct
  · -- an own batch is one of those to come
    have hSingle : ownBatches snippet [o] = [o] := List.filter_eq_self.mpr (by simpa using hOwn)
    rw [hSingle, Multiset.coe_singleton] at hRest
    obtain ⟨later, hLater⟩ := Quot.exists_rep (pending storage snippet (handOn σ j o batches))
    change (later : Multiset Enqueued) = _ at hLater
    have hPerm : rest.Perm (o :: later) := by
      rw [← Multiset.coe_eq_coe, hRest, ← hLater, ← Multiset.cons_coe, ← Multiset.singleton_add, add_comm]
    refine ⟨later, hLater, ?_⟩
    have hNext : Flow u depth snippet (expected storage snippet σ)
        (Pipeline.enqueue { σ.layers with scanning := later } o) :=
      Pipeline.flow_scan (Flow.perm hFlow hPerm) rfl
    rwa [enqueue_scanning] at hNext
  · have hSnippet : o.result.snippet ≠ some snippet := fun hOwn => hForeign snippet hOwn ⟨rfl, rfl⟩
    have hNone : ownBatches snippet [o] = [] := List.filter_eq_nil_iff.mpr (by simpa using hSnippet)
    rw [hNone, Multiset.coe_nil, add_zero] at hRest
    refine ⟨rest, hRest, ?_⟩
    have hNext := Pipeline.flow_arrive hFlow hForeign
    rwa [enqueue_scanning] at hNext

/-- The layers behind the scan work for the snippet as its own pipeline does. -/
theorem flowing_layers (h : Flowing storage u depth snippet σ) (action : Pipeline.Action m n)
    {layers : Pipeline.State m n} (hOutside : Pipeline.Outside snippet action)
    (hScanning : ∀ rest, Pipeline.step u depth { σ.layers with scanning := rest } action =
      some { layers with scanning := rest }) :
    Flowing storage u depth snippet { σ with layers } := by
  intro hDistinct
  obtain ⟨rest, hRest, hFlow⟩ := h hDistinct
  exact ⟨rest, hRest, Pipeline.flow_step hFlow hOutside (hScanning rest)⟩

theorem flowing_step {a : Action k m n} (hSourced : Sourced storage u depth σ)
    (h : Flowing storage u depth snippet σ) (hStep : step storage u depth σ a = some σ') :
    Flowing storage u depth snippet σ' := by
  cases moves_of_step hStep with
  | receive request => exact flowing_receive h request
  | start j request queue batches hIdle hQueue hScan => exact flowing_start h hIdle hQueue hScan
  | hand j o batches hPc => exact flowing_hand hSourced h hPc
  | filter v layers hFilter =>
    exact flowing_layers h (.filter v) trivial fun rest => filterWorker_scanning rest hFilter
  | project w layers hProject =>
    exact flowing_layers h (.project w) trivial fun rest => projectionStep_scanning rest hProject

theorem flowing_run {actions : List (Action k m n)} (h : run (step storage u depth) (initial k m n) actions = some σ)
    (snippet : Snippet) : Flowing storage u depth snippet σ :=
  (run_preserves (I := fun σ => Sourced storage u depth σ ∧ Flowing storage u depth snippet σ)
    (fun _ _ _ hs hStep => ⟨sourced_step hs.1 hStep, flowing_step hs.1 hs.2 hStep⟩)
    ⟨sourced_initial, flowing_initial⟩ h).2

end Flow

end CsdWorker.WorkerModule
