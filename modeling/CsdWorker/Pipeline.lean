import CsdWorker.Filter
import CsdWorker.ProjectionCorrect
import CsdWorker.SstScan

/-! # From the scan through the filter to the projection

A scan hands its batches over one by one, to the queue of the filter or to that of the projection.
Filter workers and projection workers take them from there, in any interleaving, while batches of other
snippets come from elsewhere.
-/

namespace CsdWorker.Pipeline

open Memory Run Scan
open Projection (Distinct Settled resultsOf)

set_option autoImplicit false

/-- A filter worker waits or has a result in its hands. -/
structure State (m n : Nat) where
  scanning : List Enqueued
  filterQueue : List CsdResult
  filterPc : Fin m → Option CsdResult
  projection : Projection.State n

def initial (m n : Nat) (batches : List Enqueued) : State m n :=
  { scanning := batches, filterQueue := [], filterPc := fun _ => none, projection := Projection.initial n }

inductive Action (m n : Nat) where
  | scan
  | arrive (o : Enqueued)
  | filter (v : Fin m)
  | project (w : Fin n)

section Steps
variable {m n : Nat} (u : KValue) (depth : Nat) (σ : State m n)

def enqueueProjection (result : CsdResult) : State m n :=
  { σ with projection := Projection.enqueueProjection σ.projection result }

def enqueueFilter (result : CsdResult) : State m n := { σ with filterQueue := σ.filterQueue ++ [result] }

def enqueue (o : Enqueued) : State m n :=
  match o.sink with
  | .projection => enqueueProjection σ o.result
  | .filter => enqueueFilter σ o.result

def popFilter (v : Fin m) (result : CsdResult) (queue : List CsdResult) : State m n :=
  { σ with filterQueue := queue, filterPc := Function.update σ.filterPc v (some result) }

def freeFilter (v : Fin m) : State m n := { σ with filterPc := Function.update σ.filterPc v none }

def scanStep : Option (State m n) :=
  match σ.scanning with
  | [] => none
  | o :: scanning => some (enqueue { σ with scanning := scanning } o)

def filterWorker (v : Fin m) : Option (State m n) :=
  match σ.filterPc v with
  | none =>
    match σ.filterQueue with
    | [] => none
    | result :: queue => some (popFilter σ v result queue)
  | some result => do
    let filtered ← Filter.filtering u depth result
    pure (enqueueProjection (freeFilter σ v) filtered)

def projectionStep (w : Fin n) : Option (State m n) := do
  let projection ← Projection.workerStep u σ.projection w
  pure { σ with projection := projection }

def step : Action m n → Option (State m n)
  | .scan => scanStep σ
  | .arrive o => some (enqueue σ o)
  | .filter v => filterWorker u depth σ v
  | .project w => projectionStep u σ w

end Steps

def passOn (u : KValue) (depth : Nat) (o : Enqueued) : Option CsdResult :=
  match o.sink with
  | .projection => some o.result
  | .filter => Filter.filtering u depth o.result

def inFilter (snippet : Snippet) (results : List CsdResult) : Multiset Enqueued :=
  ((resultsOf snippet results).map (⟨.filter, ·⟩) : List Enqueued)

def held (snippet : Snippet) (result : Option CsdResult) : Multiset Enqueued := inFilter snippet result.toList

def Foreign (snippet : Snippet) (result : CsdResult) : Prop :=
  ∀ other ∈ result.snippet, ¬(other.queryId = snippet.queryId ∧ other.workId = snippet.workId)

def Known (snippet : Snippet) (result : CsdResult) : Prop := result.snippet = some snippet ∨ Foreign snippet result

section Flow
variable {m n : Nat} {u : KValue} {depth : Nat} {snippet : Snippet} {batches : List Enqueued} {σ σ' : State m n}

/-- Every batch is still to come, in the filter layer or passed on. -/
structure Flow (u : KValue) (depth : Nat) (snippet : Snippet) (batches : List Enqueued) (σ : State m n) : Prop where
  known : (∀ result ∈ σ.filterQueue, Known snippet result) ∧ (∀ v, ∀ result ∈ σ.filterPc v, Known snippet result) ∧
    ∀ result ∈ σ.projection.enqueued, Known snippet result
  own : ∀ o ∈ σ.scanning, o.result.snippet = some snippet
  passed : ∃ done : List Enqueued,
    (done : Multiset Enqueued) + ∑ v, held snippet (σ.filterPc v) + inFilter snippet σ.filterQueue + σ.scanning =
      batches ∧ done.map (passOn u depth) = (resultsOf snippet σ.projection.enqueued).map some

theorem resultsOf_append (snippet : Snippet) (results more : List CsdResult) :
    resultsOf snippet (results ++ more) = resultsOf snippet results ++ resultsOf snippet more :=
  List.filter_append _ _

theorem resultsOf_own {result : CsdResult} (h : result.snippet = some snippet) :
    resultsOf snippet [result] = [result] := by
  simp [resultsOf, h]

theorem resultsOf_foreign {result : CsdResult} (h : Foreign snippet result) : resultsOf snippet [result] = [] := by
  have hne : result.snippet ≠ some snippet := fun hSnippet => h snippet hSnippet ⟨rfl, rfl⟩
  simp [resultsOf, hne]

theorem inFilter_append (snippet : Snippet) (results more : List CsdResult) :
    inFilter snippet (results ++ more) = inFilter snippet results + inFilter snippet more := by
  rw [inFilter, resultsOf_append, List.map_append, ← Multiset.coe_add]
  rfl

theorem inFilter_own {result : CsdResult} (h : result.snippet = some snippet) :
    inFilter snippet [result] = {⟨.filter, result⟩} := by
  rw [inFilter, resultsOf_own h]
  rfl

theorem inFilter_foreign {result : CsdResult} (h : Foreign snippet result) : inFilter snippet [result] = 0 := by
  rw [inFilter, resultsOf_foreign h]
  rfl

theorem flow_initial (hOwn : ∀ o ∈ batches, o.result.snippet = some snippet) :
    Flow u depth snippet batches (initial m n batches) := by
  refine ⟨⟨fun r hr => ?_, fun v r hr => ?_, fun r hr => ?_⟩, hOwn, [], ?_, rfl⟩
  · cases hr
  · cases hr
  · cases hr
  · simp [initial, held, inFilter, resultsOf]

theorem flow_arrive (h : Flow u depth snippet batches σ) {o : Enqueued} (ho : Foreign snippet o.result) :
    Flow u depth snippet batches (enqueue σ o) := by
  obtain ⟨⟨hQueue, hPc, hEnqueued⟩, hOwn, done, hBatches, hDone⟩ := h
  have hKnown : Known snippet o.result := Or.inr ho
  unfold enqueue
  split
  · refine ⟨⟨hQueue, hPc, ?_⟩, hOwn, done, hBatches, ?_⟩
    · exact List.forall_mem_append.mpr ⟨hEnqueued, List.forall_mem_singleton.mpr hKnown⟩
    · change _ = (resultsOf snippet (σ.projection.enqueued ++ [o.result])).map some
      rw [resultsOf_append, resultsOf_foreign ho, List.append_nil]
      exact hDone
  · refine ⟨⟨List.forall_mem_append.mpr ⟨hQueue, List.forall_mem_singleton.mpr hKnown⟩, hPc, hEnqueued⟩,
      hOwn, done, ?_, hDone⟩
    change _ + inFilter snippet (σ.filterQueue ++ [o.result]) + _ = _
    rw [inFilter_append, inFilter_foreign ho, add_zero]
    exact hBatches

theorem flow_scan (h : Flow u depth snippet batches σ) (hStep : scanStep σ = some σ') :
    Flow u depth snippet batches σ' := by
  obtain ⟨⟨hQueue, hPc, hEnqueued⟩, hOwn, done, hBatches, hDone⟩ := h
  rw [scanStep] at hStep
  split at hStep
  · cases hStep
  · rename_i o scanning hScanning
    obtain rfl := Option.some_inj.mp hStep
    rw [hScanning, ← Multiset.cons_coe, ← Multiset.singleton_add] at hBatches
    rw [hScanning] at hOwn
    obtain ⟨ho, hOwn⟩ := List.forall_mem_cons.mp hOwn
    have hKnown : Known snippet o.result := Or.inl ho
    unfold enqueue
    split
    · rename_i hSink
      refine ⟨⟨hQueue, hPc, ?_⟩, hOwn, done ++ [o], ?_, ?_⟩
      · exact List.forall_mem_append.mpr ⟨hEnqueued, List.forall_mem_singleton.mpr hKnown⟩
      · change ((done ++ [o] : List Enqueued) : Multiset Enqueued) + ∑ v, held snippet (σ.filterPc v) +
          inFilter snippet σ.filterQueue + (scanning : Multiset Enqueued) = batches
        rw [← hBatches, ← Multiset.coe_add, Multiset.coe_singleton]
        abel
      · change _ = (resultsOf snippet (σ.projection.enqueued ++ [o.result])).map some
        rw [resultsOf_append, resultsOf_own ho, List.map_append, List.map_append, hDone]
        simp [passOn, hSink]
    · rename_i hSink
      refine ⟨⟨List.forall_mem_append.mpr ⟨hQueue, List.forall_mem_singleton.mpr hKnown⟩, hPc, hEnqueued⟩, hOwn, done,
        ?_, hDone⟩
      change (done : Multiset Enqueued) + ∑ v, held snippet (σ.filterPc v) +
        inFilter snippet (σ.filterQueue ++ [o.result]) + (scanning : Multiset Enqueued) = batches
      have ho' : (⟨.filter, o.result⟩ : Enqueued) = o := by rw [← hSink]
      rw [inFilter_append, inFilter_own ho, ho', ← hBatches]
      abel

theorem sum_held_update (snippet : Snippet) (pc : Fin m → Option CsdResult) (v : Fin m) (result : Option CsdResult) :
    ∑ v', held snippet (Function.update pc v result v') + held snippet (pc v) =
      ∑ v', held snippet (pc v') + held snippet result :=
  Quota.sum_update_add (held snippet) pc v result

theorem known_update {pc : Fin m → Option CsdResult} (hPc : ∀ v, ∀ result ∈ pc v, Known snippet result) {v : Fin m}
    {result : Option CsdResult} (hNew : ∀ r ∈ result, Known snippet r) :
    ∀ v', ∀ r ∈ Function.update pc v result v', Known snippet r := by
  intro v' r hr
  rcases eq_or_ne v' v with rfl | hne
  · rw [Function.update_self] at hr
    exact hNew r hr
  · rw [Function.update_of_ne hne] at hr
    exact hPc v' r hr

theorem flow_pop (h : Flow u depth snippet batches σ) {v : Fin m} {result : CsdResult} {queue : List CsdResult}
    (hWaiting : σ.filterPc v = none) (hPop : σ.filterQueue = result :: queue) :
    Flow u depth snippet batches (popFilter σ v result queue) := by
  obtain ⟨⟨hQueue, hPc, hEnqueued⟩, hOwn, done, hBatches, hDone⟩ := h
  rw [hPop] at hQueue
  obtain ⟨hResult, hQueue⟩ := List.forall_mem_cons.mp hQueue
  refine ⟨⟨hQueue, known_update hPc fun r hr => ?_, hEnqueued⟩, hOwn, done, ?_, hDone⟩
  · obtain rfl := Option.mem_some_iff.mp hr
    exact hResult
  · have hSum := sum_held_update snippet σ.filterPc v (some result)
    rw [hWaiting, show held snippet none = 0 from rfl, add_zero] at hSum
    change (done : Multiset Enqueued) + ∑ v', held snippet (Function.update σ.filterPc v (some result) v') +
      inFilter snippet queue + (σ.scanning : Multiset Enqueued) = batches
    rw [hSum, ← hBatches, hPop, ← List.singleton_append, inFilter_append]
    change _ + (_ + inFilter snippet [result]) + _ + _ = _
    abel

theorem flow_filter (h : Flow u depth snippet batches σ) {v : Fin m} {result filtered : CsdResult}
    (hHand : σ.filterPc v = some result) (hFiltered : Filter.filtering u depth result = some filtered) :
    Flow u depth snippet batches (enqueueProjection (freeFilter σ v) filtered) := by
  obtain ⟨⟨hQueue, hPc, hEnqueued⟩, hOwn, done, hBatches, hDone⟩ := h
  have hSnippet := Filter.filtering_snippet hFiltered
  have hSum := sum_held_update snippet σ.filterPc v none
  rw [hHand, show held snippet none = 0 from rfl, add_zero] at hSum
  have hFree : ∀ v', ∀ r ∈ Function.update σ.filterPc v none v', Known snippet r :=
    known_update hPc fun r hr => (nomatch hr)
  have hKnown := hPc v result (by rw [hHand]; rfl)
  have hNew : Known snippet filtered := by rwa [Known, Foreign, hSnippet]
  have hAll : ∀ r ∈ σ.projection.enqueued ++ [filtered], Known snippet r :=
    List.forall_mem_append.mpr ⟨hEnqueued, List.forall_mem_singleton.mpr hNew⟩
  rcases hKnown with hOwnResult | hForeign
  · refine ⟨⟨hQueue, hFree, hAll⟩, hOwn, done ++ [⟨.filter, result⟩], ?_, ?_⟩
    · change ((done ++ [Enqueued.mk .filter result] : List Enqueued) : Multiset Enqueued) +
        ∑ v', held snippet (Function.update σ.filterPc v none v') + inFilter snippet σ.filterQueue +
        (σ.scanning : Multiset Enqueued) = batches
      have hHeld : held snippet (some result) = {⟨.filter, result⟩} := inFilter_own hOwnResult
      rw [← hBatches, ← hSum, hHeld, ← Multiset.coe_add, Multiset.coe_singleton]
      abel
    · change _ = (resultsOf snippet (σ.projection.enqueued ++ [filtered])).map some
      rw [resultsOf_append, resultsOf_own (hSnippet.trans hOwnResult), List.map_append, List.map_append, hDone]
      exact congrArg _ (congrArg (fun r => [r]) hFiltered)
  · have hForeign' : Foreign snippet filtered := by rwa [Foreign, hSnippet]
    refine ⟨⟨hQueue, hFree, hAll⟩, hOwn, done, ?_, ?_⟩
    · change (done : Multiset Enqueued) + ∑ v', held snippet (Function.update σ.filterPc v none v') +
        inFilter snippet σ.filterQueue + (σ.scanning : Multiset Enqueued) = batches
      have hHeld : held snippet (some result) = 0 := inFilter_foreign hForeign
      rw [← hBatches, ← hSum, hHeld, add_zero]
    · change _ = (resultsOf snippet (σ.projection.enqueued ++ [filtered])).map some
      rw [resultsOf_append, resultsOf_foreign hForeign', List.append_nil]
      exact hDone

theorem flow_project (h : Flow u depth snippet batches σ) {w : Fin n} (hStep : projectionStep u σ w = some σ') :
    Flow u depth snippet batches σ' := by
  obtain ⟨projection, hWorker, hSome⟩ := Option.bind_eq_some_iff.mp hStep
  cases hSome
  have hEnqueued := Projection.enqueued_of_transition (Projection.transition_of_workerStep hWorker)
  obtain ⟨hKnown, hOwn, done, hBatches, hDone⟩ := h
  refine ⟨?_, hOwn, done, hBatches, ?_⟩
  · change _ ∧ _ ∧ ∀ result ∈ projection.enqueued, _
    rw [hEnqueued]
    exact hKnown
  · change _ = (resultsOf snippet projection.enqueued).map some
    rw [hEnqueued]
    exact hDone

end Flow

section Run
variable {m n : Nat} {u : KValue} {depth : Nat} {snippet : Snippet} {batches : List Enqueued} {σ σ' : State m n}

def Outside (snippet : Snippet) : Action m n → Prop
  | .arrive o => Foreign snippet o.result
  | .scan | .filter _ | .project _ => True

theorem flow_step {action : Action m n} (h : Flow u depth snippet batches σ) (hOutside : Outside snippet action)
    (hStep : step u depth σ action = some σ') : Flow u depth snippet batches σ' := by
  cases action with
  | scan => exact flow_scan h hStep
  | arrive o =>
    cases hStep
    exact flow_arrive h hOutside
  | filter v =>
    change filterWorker u depth σ v = some σ' at hStep
    unfold filterWorker at hStep
    split at hStep
    · split at hStep
      · cases hStep
      · cases hStep
        exact flow_pop h ‹_› ‹_›
    · obtain ⟨filtered, hFiltered, hSome⟩ := Option.bind_eq_some_iff.mp hStep
      cases hSome
      exact flow_filter h ‹_› hFiltered
  | project w => exact flow_project h hStep

/-- The projection of the pipeline does what the projection layer alone can do. -/
def ProjectionReachable (u : KValue) (projection : Projection.State n) : Prop :=
  ∃ actions, run (Projection.step u) (Projection.initial n) actions = some projection

theorem projectionReachable_snoc {s s' : Projection.State n} (action : Projection.Action n)
    (h : ProjectionReachable u s) (hStep : Projection.step u s action = some s') : ProjectionReachable u s' := by
  obtain ⟨actions, hRun⟩ := h
  refine ⟨actions ++ [action], ?_⟩
  rw [run_append, hRun, Option.bind_some, run_cons, hStep]
  rfl

theorem projectionReachable_enqueue (h : ProjectionReachable u σ.projection) (o : Enqueued) :
    ProjectionReachable u (enqueue σ o).projection := by
  unfold enqueue
  split
  · exact projectionReachable_snoc (.enqueue o.result) h rfl
  · exact h

theorem projectionReachable_step {action : Action m n} (h : ProjectionReachable u σ.projection)
    (hStep : step u depth σ action = some σ') : ProjectionReachable u σ'.projection := by
  cases action with
  | scan =>
    change scanStep σ = some σ' at hStep
    unfold scanStep at hStep
    split at hStep
    · cases hStep
    · rename_i o scanning hScanning
      cases hStep
      exact projectionReachable_enqueue (σ := { σ with scanning := scanning }) h o
  | arrive o =>
    cases hStep
    exact projectionReachable_enqueue h o
  | filter v =>
    change filterWorker u depth σ v = some σ' at hStep
    unfold filterWorker at hStep
    split at hStep
    · split at hStep
      · cases hStep
      · cases hStep
        exact h
    · obtain ⟨filtered, hFiltered, hSome⟩ := Option.bind_eq_some_iff.mp hStep
      cases hSome
      exact projectionReachable_snoc (.enqueue filtered) h rfl
  | project w =>
    obtain ⟨projection, hWorker, hSome⟩ := Option.bind_eq_some_iff.mp hStep
    cases hSome
    exact projectionReachable_snoc (.work w) h hWorker

theorem flow_run {actions : List (Action m n)} (hOwn : ∀ o ∈ batches, o.result.snippet = some snippet)
    (hOutside : ∀ action ∈ actions, Outside snippet action)
    (hRun : run (step u depth) (initial m n batches) actions = some σ) :
    Flow u depth snippet batches σ ∧ ProjectionReachable u σ.projection := by
  refine run_preserves_of (I := fun σ => Flow u depth snippet batches σ ∧ ProjectionReachable u σ.projection)
    (A := Outside snippet) (fun s a s' ha hs hStep => ?_) hOutside ⟨flow_initial hOwn, [], rfl⟩ hRun
  exact ⟨flow_step hs.1 ha hStep, projectionReachable_step hs.2 hStep⟩

end Run

end CsdWorker.Pipeline
