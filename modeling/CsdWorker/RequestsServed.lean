import CsdWorker.ProjectionProgress
import CsdWorker.WorkerModule

/-! # Every request is served

Requests with ids of their own whose scans can be counted off and whose rows can be evaluated: however the workers of
all layers interleave, they take a bounded number of steps, and when none of them can move, every row that a request
asked for and that passes its filter is in one of its messages.
-/

namespace CsdWorker.WorkerModule

open Memory Run Scan Quota
open Pipeline (Flow Outcome ProjectionReachable blocksOf deliverable kept passOn)
open Projection (Processable Snippet.key projectRow resultCost resultsOf)

set_option autoImplicit false

section Cost
variable {k m n : Nat} (storage : Storage)

/-- Three queues stand between the scan and the projection. -/
def batchCost (n : Nat) (o : Enqueued) : Nat := resultCost n o.result + 3

def requestCost (n : Nat) (request : Request) : Nat := ((batchesOf storage request).map (batchCost n)).sum + 1

def holdingCost (n : Nat) : Option CsdResult → Nat
  | none => 0
  | some result => resultCost n result + 1

def stepsLeft (σ : State k m n) : Nat :=
  (σ.scanQueue.map (requestCost storage n)).sum + ∑ j, ((σ.scanPc j).map (batchCost n)).sum +
    (σ.layers.filterQueue.map fun result => resultCost n result + 2).sum + ∑ v, holdingCost n (σ.layers.filterPc v) +
    Projection.stepsLeft σ.layers.projection

def Action.cost : Action k m n → Nat
  | .receive request => requestCost storage n request + 1
  | .scan _ | .filter _ | .project _ => 0

def Action.request : Action k m n → Option Request
  | .receive request => some request
  | .scan _ | .filter _ | .project _ => none

variable {storage} {u : KValue} {depth : Nat} {σ σ' : State k m n}

theorem stepsLeft_initial : stepsLeft storage (initial k m n) = n := by
  have hProjection : Projection.stepsLeft (Projection.initial n) = n := Projection.stepsLeft_initial
  simp [stepsLeft, initial, Pipeline.initial, holdingCost, hProjection]

theorem sum_cost (actions : List (Action k m n)) :
    (actions.map (Action.cost storage)).sum =
      ((actions.filterMap Action.request).map fun request => requestCost storage n request + 1).sum := by
  induction actions with
  | nil => rfl
  | cons a actions ih =>
    rw [List.map_cons, List.sum_cons, ih, List.filterMap_cons]
    cases a with
    | receive request => rfl
    | scan j => exact Nat.zero_add _
    | filter v => exact Nat.zero_add _
    | project w => exact Nat.zero_add _

theorem received_run {actions : List (Action k m n)} (h : run (step storage u depth) σ actions = some σ') :
    σ'.received = σ.received ++ actions.filterMap Action.request := by
  induction actions generalizing σ with
  | nil =>
    obtain rfl := Option.some_inj.mp h
    exact (List.append_nil _).symm
  | cons a actions ih =>
    rw [run_cons] at h
    obtain ⟨t, hFirst, hRest⟩ := Option.bind_eq_some_iff.mp h
    rw [ih hRest, List.filterMap_cons]
    cases moves_of_step hFirst with
    | receive request =>
      simp only [enqueueScan, Action.request, List.append_assoc]
      rfl
    | start j request queue batches hIdle hQueue hScan => rfl
    | hand j o batches hPc => rfl
    | filter v layers hStep => rfl
    | project w layers hStep => rfl

theorem resultCost_filtering {result filtered : CsdResult} (h : Filter.filtering u depth result = some filtered) :
    resultCost n filtered ≤ resultCost n result := by
  obtain ⟨snippet, hSnippet, -⟩ := Option.bind_eq_some_iff.mp h
  obtain ⟨-, hSealed, -, -⟩ := Filter.filtering_sealed hSnippet h
  have hRows : filtered.data.rowCount ≤ result.data.rowCount := by
    rw [hSealed.rowCount]
    refine (List.length_filter_le _ _).trans ?_
    rw [Data.rows, List.length_map, List.length_range]
  simp only [resultCost]
  omega

theorem stepsLeft_filter {v : Fin m} {layers : Pipeline.State m n}
    (hStep : Pipeline.filterWorker u depth σ.layers v = some layers) :
    stepsLeft storage { σ with layers } + 1 ≤ stepsLeft storage σ := by
  unfold Pipeline.filterWorker at hStep
  split at hStep
  · rename_i hPc
    split at hStep
    · cases hStep
    · rename_i result queue hQueue
      obtain rfl := Option.some_inj.mp hStep
      have hSum := sum_update_add (holdingCost n) σ.layers.filterPc v (some result)
      rw [hPc, holdingCost, holdingCost] at hSum
      simp only [stepsLeft, Pipeline.popFilter, hQueue, List.map_cons, List.sum_cons]
      omega
  · rename_i result hPc
    obtain ⟨filtered, hFiltered, hEnd⟩ := Option.bind_eq_some_iff.mp hStep
    obtain rfl := Option.some_inj.mp hEnd
    have hSum := sum_update_add (holdingCost n) σ.layers.filterPc v none
    rw [hPc, holdingCost, holdingCost] at hSum
    have hCost : resultCost n filtered ≤ resultCost n result := resultCost_filtering hFiltered
    have hProjection := Projection.stepsLeft_enqueue σ.layers.projection filtered
    simp only [stepsLeft, Pipeline.enqueueProjection, Pipeline.freeFilter, hProjection]
    omega

theorem stepsLeft_hand {j : Fin k} {o : Enqueued} {batches : List Enqueued} (hPc : σ.scanPc j = o :: batches) :
    stepsLeft storage (handOn σ j o batches) + 1 ≤ stepsLeft storage σ := by
  obtain ⟨sink, result⟩ := o
  have hSum := sum_update_add (fun b => (b.map (batchCost n)).sum) σ.scanPc j batches
  simp only [hPc, List.map_cons, List.sum_cons, batchCost] at hSum
  cases sink with
  | projection =>
    have hProjection := Projection.stepsLeft_enqueue σ.layers.projection result
    simp only [stepsLeft, handOn, Pipeline.enqueue, Pipeline.enqueueProjection, hProjection]
    omega
  | filter =>
    simp only [stepsLeft, handOn, Pipeline.enqueue, Pipeline.enqueueFilter, List.map_append, List.sum_append,
      List.map_singleton, List.sum_singleton]
    omega

theorem stepsLeft_step {a : Action k m n} (hReachable : ProjectionReachable u σ.layers.projection)
    (hStep : step storage u depth σ a = some σ') : stepsLeft storage σ' + 1 ≤ stepsLeft storage σ + a.cost storage := by
  cases moves_of_step hStep with
  | receive request =>
    simp only [stepsLeft, enqueueScan, Action.cost, List.map_append, List.sum_append, List.map_singleton,
      List.sum_singleton]
    omega
  | start j request queue batches hIdle hQueue hScan =>
    have hSum := sum_update_add (fun b => (b.map (batchCost n)).sum) σ.scanPc j batches
    simp only [hIdle, List.map_nil, List.sum_nil] at hSum
    have hBatches : batchesOf storage request = batches := by rw [batchesOf, hScan, Option.getD_some]
    simp only [stepsLeft, startScan, Action.cost, hQueue, List.map_cons, List.sum_cons, requestCost, hBatches]
    omega
  | hand j o batches hPc => exact stepsLeft_hand hPc
  | filter v layers hFilter => exact stepsLeft_filter hFilter
  | project w layers hProject =>
    obtain ⟨projection, hWorker, hEnd⟩ := Option.bind_eq_some_iff.mp hProject
    obtain rfl := Option.some_inj.mp hEnd
    obtain ⟨actions, hRun⟩ := hReachable
    have hLess := Projection.stepsLeft_transition (Projection.good_run hRun) (Projection.orderly_run hRun)
      (Projection.transition_of_workerStep hWorker)
    simp only [stepsLeft, Action.cost]
    omega

theorem length_run {actions : List (Action k m n)} (h : run (step storage u depth) (initial k m n) actions = some σ) :
    actions.length ≤ n + (σ.received.map fun request => requestCost storage n request + 1).sum := by
  have hLength := run_length_le (I := fun σ : State k m n => ProjectionReachable u σ.layers.projection)
    (μ := stepsLeft storage) (g := Action.cost storage)
    (fun _ _ _ hs hStep => ⟨projectionReachable_step hs hStep, stepsLeft_step hs hStep⟩) ⟨[], rfl⟩ h
  rw [stepsLeft_initial, sum_cost] at hLength
  rw [received_run h]
  exact Nat.le_of_add_right_le hLength

end Cost

section Stuck
variable {k m n : Nat} {storage : Storage} {u : KValue} {depth : Nat} {σ : State k m n} {request : Request}
variable {rows : List Bytes}

/-- No two requests have the same ids. -/
def DistinctIds (requests : List Request) : Prop := requests.Pairwise fun a b => ¬SameIds a.snippet b.snippet

/-- The batches of the scan can be counted off, and the rows can be evaluated as the snippet asks. -/
structure Servable (storage : Storage) (u : KValue) (depth : Nat) (request : Request) (rows : List Bytes) : Prop where
  scannable : Scannable storage request rows
  filterable : request.snippet.queryInfo.filtering ≠ [] →
    ∀ row ∈ rows, (Filter.rowPasses u depth request.snippet row).isSome
  projectable : ∀ row ∈ rows, kept u depth request.snippet row → (projectRow u request.snippet row).isSome

theorem Servable.scans_batchesOf (h : Servable storage u depth request rows) :
    Scans storage request rows (batchesOf storage request) := by
  obtain ⟨batches, hScans⟩ := h.scannable.scans
  rwa [batchesOf, hScans.scanned, Option.getD_some]

theorem Servable.scanBatch (h : Servable storage u depth request rows) :
    ∀ o ∈ batchesOf storage request, Pipeline.ScanBatch request.snippet o :=
  fun o ho => (scanWorker_handsOn h.scans_batchesOf.scanned o ho).scanBatch

theorem Servable.mem_rows (h : Servable storage u depth request rows) {o : Enqueued}
    (ho : o ∈ batchesOf storage request) {row : Bytes} (hRow : row ∈ o.result.data.rows) : row ∈ rows :=
  h.scans_batchesOf.rows.subset (List.mem_flatMap.mpr ⟨o, ho, hRow⟩)

theorem SameIds.symm {a b : Snippet} (h : SameIds a b) : SameIds b a := ⟨h.1.symm, h.2.symm⟩

theorem requestsOf_eq_singleton {requests : List Request} (h : DistinctIds requests) (hRequest : request ∈ requests) :
    requestsOf request.snippet requests = [request] ∧ Distinct request.snippet requests := by
  induction requests with
  | nil => cases hRequest
  | cons r requests ih =>
    obtain ⟨hFirst, hRest⟩ := List.pairwise_cons.mp h
    obtain rfl | hMem := List.mem_cons.mp hRequest
    · refine ⟨?_, fun other hOther hSame => ?_⟩
      · rw [requestsOf, List.filter_cons_of_pos (by simp), List.filter_eq_nil_iff.mpr fun other hOther hEq => ?_]
        exact hFirst other hOther ((of_decide_eq_true hEq) ▸ ⟨rfl, rfl⟩)
      · obtain rfl | hOther := List.mem_cons.mp hOther
        · rfl
        · exact absurd hSame.symm (hFirst other hOther)
    · obtain ⟨hRequests, hDistinct⟩ := ih hRest hMem
      have hne : r.snippet ≠ request.snippet := fun hEq => hFirst request hMem (hEq ▸ ⟨rfl, rfl⟩)
      refine ⟨?_, List.forall_mem_cons.mpr ⟨fun hSame => absurd hSame (hFirst request hMem), hDistinct⟩⟩
      rw [requestsOf, List.filter_cons_of_neg (by simpa using hne)]
      exact hRequests

theorem expected_eq (hIds : DistinctIds σ.received) (hRequest : request ∈ σ.received) :
    expected storage request.snippet σ = batchesOf storage request := by
  rw [expected, (requestsOf_eq_singleton hIds hRequest).1, List.flatMap_singleton]

/-- No worker can move. -/
def Quiet (storage : Storage) (u : KValue) (depth : Nat) (σ : State k m n) : Prop :=
  ∀ a : Action k m n, a.request = none → step storage u depth σ a = none

section Requests
variable (hFlowing : ∀ snippet, Flowing storage u depth snippet σ) (hIds : DistinctIds σ.received)

include hFlowing hIds in
theorem flow_of_received (hRequest : request ∈ σ.received) :
    ∃ rest : List Enqueued, (rest : Multiset Enqueued) = pending storage request.snippet σ ∧
      Flow u depth request.snippet (batchesOf storage request) { σ.layers with scanning := rest } := by
  rw [← expected_eq hIds hRequest]
  exact hFlowing request.snippet (requestsOf_eq_singleton hIds hRequest).2

variable (hSourced : Sourced storage u depth σ) {rows : Request → List Bytes}
variable (hServable : ∀ request ∈ σ.received, Servable storage u depth request (rows request))

include hFlowing hIds hSourced hServable in
theorem processable : Processable u σ.layers.projection.enqueued := by
  intro result hResult
  obtain ⟨o, ⟨request, hRequest, ho⟩, hPass⟩ := hSourced.enqueued result hResult
  have hServed := hServable request hRequest
  have hBatch := hServed.scanBatch o ho
  refine ⟨request.snippet, (Pipeline.passOn_own hBatch.own hPass).1, fun i hi => ?_, ?_⟩
  · have hRow : result.data.rowAt i ∈ result.data.rows := List.mem_map.mpr ⟨i, List.mem_range.mpr hi, rfl⟩
    rw [Pipeline.passOn_rows hBatch hPass] at hRow
    obtain ⟨hMem, hKept⟩ := List.mem_filter.mp hRow
    exact hServed.projectable _ (hServed.mem_rows ho hMem) hKept
  · obtain ⟨rest, -, hFlow⟩ := flow_of_received hFlowing hIds hRequest
    exact hFlow.admissible (fun o ho => (hServed.scanBatch o ho).own) hServed.scans_batchesOf.counted.neverEarly

variable (hQuiet : Quiet storage u depth σ)

include hQuiet in
theorem scanPc_of_quiet (j : Fin k) : σ.scanPc j = [] := by
  have hStep : scanStep storage σ j = none := hQuiet (.scan j) rfl
  cases hPc : σ.scanPc j with
  | nil => rfl
  | cons o batches =>
    rw [scanStep, hPc] at hStep
    cases hStep

include hSourced hServable hQuiet in
theorem scanQueue_of_quiet (hk : 0 < k) : σ.scanQueue = [] := by
  have hStep : scanStep storage σ ⟨0, hk⟩ = none := hQuiet (.scan ⟨0, hk⟩) rfl
  cases hQueue : σ.scanQueue with
  | nil => rfl
  | cons request queue =>
    have hRequest := hSourced.queue request (hQueue ▸ List.mem_cons_self)
    obtain ⟨batches, hScans⟩ := (hServable request hRequest).scannable.scans
    rw [scanStep, scanPc_of_quiet hQuiet, hQueue] at hStep
    simp [hScans.scanned] at hStep

include hSourced hServable hQuiet in
theorem filterPc_of_quiet (v : Fin m) : σ.layers.filterPc v = none := by
  have hStep : (Pipeline.filterWorker u depth σ.layers v).map _ = none := hQuiet (.filter v) rfl
  rw [Option.map_eq_none_iff] at hStep
  cases hPc : σ.layers.filterPc v with
  | none => rfl
  | some result =>
    obtain ⟨request, hRequest, ho⟩ := hSourced.filterPc v result hPc
    have hServed := hServable request hRequest
    have hBatch := hServed.scanBatch _ ho
    obtain ⟨filtered, hFiltered⟩ := Option.isSome_iff_exists.mp (Filter.filtering_isSome (u := u) hBatch.own
      fun row hRow => hServed.filterable (hBatch.filtered rfl) row (hServed.mem_rows ho hRow))
    rw [Pipeline.filterWorker, hPc] at hStep
    simp [hFiltered] at hStep

include hSourced hServable hQuiet in
theorem filterQueue_of_quiet (hm : 0 < m) : σ.layers.filterQueue = [] := by
  have hStep : (Pipeline.filterWorker u depth σ.layers ⟨0, hm⟩).map _ = none := hQuiet (.filter ⟨0, hm⟩) rfl
  rw [Option.map_eq_none_iff, Pipeline.filterWorker, filterPc_of_quiet hSourced hServable hQuiet] at hStep
  cases hQueue : σ.layers.filterQueue with
  | nil => rfl
  | cons result queue =>
    rw [hQueue] at hStep
    cases hStep

include hQuiet in
theorem workerStep_of_quiet (w : Fin n) : Projection.workerStep u σ.layers.projection w = none := by
  have hStep : (Pipeline.projectionStep u σ.layers w).map _ = none := hQuiet (.project w) rfl
  rw [Option.map_eq_none_iff, Pipeline.projectionStep] at hStep
  exact Option.eq_none_iff_forall_ne_some.mpr (by simpa using hStep)

include hFlowing hIds hSourced hServable hQuiet in
theorem drained_of_quiet (hk : 0 < k) (hm : 0 < m) (hn : 0 < n) (hReachable : ProjectionReachable u σ.layers.projection)
    (hRequest : request ∈ σ.received) :
    Flow u depth request.snippet (batchesOf storage request) { σ.layers with scanning := [] } ∧
      Pipeline.Drained request.snippet { σ.layers with scanning := [] } := by
  obtain ⟨rest, hRest, hFlow⟩ := flow_of_received hFlowing hIds hRequest
  obtain rfl : rest = [] := by
    rw [pending, scanQueue_of_quiet hSourced hServable hQuiet hk] at hRest
    simpa [scanPc_of_quiet hQuiet, requestsOf, ownBatches] using hRest
  have hIdle := Projection.idle_of_stuck hn hReachable (processable hFlowing hIds hSourced hServable)
    (workerStep_of_quiet hQuiet)
  refine ⟨hFlow, rfl, ?_, fun v result hResult => ?_, hIdle.settled _⟩
  · change resultsOf _ σ.layers.filterQueue = []
    rw [filterQueue_of_quiet hSourced hServable hQuiet hm]
    rfl
  · change result ∈ σ.layers.filterPc v at hResult
    rw [filterPc_of_quiet hSourced hServable hQuiet] at hResult
    cases hResult

end Requests

theorem Outcome.perm {snippet : Snippet} {rows rows' : List Bytes} {τ : Pipeline.State m n}
    (h : Outcome u depth snippet rows τ) (hPerm : rows.Perm rows') : Outcome u depth snippet rows' τ where
  filterable := fun hFiltering row hRow => h.filterable hFiltering row (hPerm.symm.subset hRow)
  projectable := fun row hRow => h.projectable row (hPerm.symm.subset hRow)
  rows_perm := h.rows_perm.trans ((hPerm.filter _).filterMap _)
  delivered := h.delivered

theorem Servable.outcome (h : Servable storage u depth request rows)
    (hFlow : Flow u depth request.snippet (batchesOf storage request) { σ.layers with scanning := [] })
    (hReachable : ProjectionReachable u σ.layers.projection)
    (hDrained : Pipeline.Drained request.snippet { σ.layers with scanning := [] }) :
    Outcome u depth request.snippet rows σ.layers := by
  have hScans := h.scans_batchesOf
  have hOutcome := Pipeline.outcome_of_drained hFlow hReachable h.scanBatch hScans.counted.neverEarly
    hScans.counted.blocks hDrained
  obtain ⟨hFilterable, hProjectable, hRows, hDelivered⟩ := Outcome.perm hOutcome hScans.rows
  exact ⟨hFilterable, hProjectable, hRows, hDelivered⟩

end Stuck

def positiveKeys : Snippet :=
  { Projection.keySnippet 3 with
    queryInfo := {
      filtering := [{ lv := ⟨[.column], [bytesOf "o_orderkey"]⟩, operator := .ge, rv := ⟨[.int32], [bytesOf "1"]⟩ }]
      projection := [⟨.colName, ⟨[.column], [bytesOf "o_orderkey"]⟩⟩] }
    blockInfo := ⟨[bytesOf "1.sst"], []⟩
    resultInfo := {
      tableAlias := bytesOf "orders"
      columnAlias := [bytesOf "o_orderkey"]
      returnColumnType := [3]
      returnColumnLength := [4]
      totalBlockCount := 3
      csdBlockCount := 3 } }

def positiveRequest : Request := { type := .sstFileScan, partition := [], seekKey := [], snippet := positiveKeys }

def ordersStorage : Storage :=
  { blocks := fun _ _ _ => ⟨[], List.Pairwise.nil⟩, files := ordersFiles, found := none, foundIn := fun _ _ _ => none }

/-- The scan worker takes the request and hands on one batch, the filter worker takes it, and the projection worker
does the rest. -/
def positiveActions : List (Action 1 1 1) :=
  let first : Fin 1 := Fin.last 0
  [.receive positiveRequest, .scan first, .scan first, .filter first, .filter first] ++
    List.replicate 11 (.project first)

theorem positive_entries : scannedEntries ordersFiles positiveKeys = [ordersEntry 1] := rfl

theorem positive_rows : scannedRows ordersFiles positiveKeys = [[1, 0, 0, 0, 7, 8]] := by
  rw [scannedRows, positive_entries]
  rfl

theorem positive_scannable : SstScannable ordersFiles positiveKeys := by
  refine ⟨fun e he => ?_, fun j hj hLast => ?_⟩
  · rw [positive_entries, List.mem_singleton] at he
    subst he
    exact ⟨[1, 0, 0, 0, 7, 8], rfl, by decide⟩
  · rw [positive_rows] at hLast
    exact absurd (hj.trans hLast) (by decide)

theorem positive_servable : Servable ordersStorage .zero 0 positiveRequest [[1, 0, 0, 0, 7, 8]] := by
  refine ⟨?_, fun _ row hRow => ?_, fun row hRow _ => ?_⟩
  · rw [← positive_rows]
    exact .sst rfl positive_scannable
  · obtain rfl := List.mem_singleton.mp hRow
    rfl
  · obtain rfl := List.mem_singleton.mp hRow
    rfl

theorem positive_observed :
    (run (step ordersStorage .zero 0) (initial 1 1 1) positiveActions).map (fun σ =>
      ((σ.received, σ.scanQueue, σ.scanPc 0), (σ.layers.filterQueue, σ.layers.filterPc 0),
        σ.layers.projection.queue, σ.layers.projection.pc 0)) =
      some (([positiveRequest], [], []), ([], none), [], .waiting) := rfl

theorem quiet_of_idle {k m n : Nat} {storage : Storage} {u : KValue} {depth : Nat} {σ : State k m n}
    (hQueue : σ.scanQueue = []) (hScan : ∀ j, σ.scanPc j = []) (hFilterQueue : σ.layers.filterQueue = [])
    (hFilter : ∀ v, σ.layers.filterPc v = none) (hIdle : Projection.Idle σ.layers.projection) :
    Quiet storage u depth σ := by
  intro a ha
  cases a with
  | receive request => cases ha
  | scan j => rw [step, scanStep, hScan, hQueue]
  | filter v => rw [step, Pipeline.filterWorker, hFilter, hFilterQueue, Option.map_none]
  | project w =>
    rw [step, Pipeline.projectionStep, Projection.workerStep, hIdle.workers]
    simp [Projection.waitAndPop, hIdle.queue]

end CsdWorker.WorkerModule
