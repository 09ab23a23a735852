import CsdWorker.ProjectionView

/-! # Runs of the projection, seen from one snippet

The invariants of the job carry over to every reachable state: what is filed under a key is accounted
for in any run, and if no part of the results of a snippet weighs its `csd_block_count`, the job of the
snippet keeps to its life cycle and its buffers carry its name.
-/

namespace CsdWorker.Projection

open Memory Run

set_option autoImplicit false

/-- No other snippet has the ids of this one. -/
def Distinct (snippet : Snippet) (results : List CsdResult) : Prop :=
  ∀ result ∈ results, ∀ other ∈ result.snippet,
    other.queryId = snippet.queryId → other.workId = snippet.workId → other = snippet

structure Admissible (u : KValue) (snippet : Snippet) (results : List CsdResult) : Prop where
  distinct : Distinct snippet results
  noEarly : (spec u).NoEarly snippet.resultInfo.csdBlockCount (worksOf (Snippet.key snippet) results)

/-- Everything filed under the key of the snippet carries the snippet. -/
structure Named {n : Nat} (snippet : Snippet) (σ : State n) : Prop where
  buffers : ∀ w buffer, σ.idBufferMap w (Snippet.key snippet) = some buffer → buffer.snippet = some snippet
  messages : ∀ m ∈ σ.returned, m.1 = Snippet.key snippet → m.2.snippet = some snippet

section Works
variable {snippet : Snippet} {results : List CsdResult}

theorem mem_worksOf {key : String} {work : Work} :
    work ∈ worksOf key results ↔ work.toResult ∈ results ∧ work.key = key := by
  rw [worksOf, List.mem_filter, List.mem_filterMap, decide_eq_true_eq]
  constructor
  · rintro ⟨⟨result, hMem, hWork⟩, hKey⟩
    obtain ⟨s, hSnippet, rfl⟩ := Option.map_eq_some_iff.mp hWork
    refine ⟨?_, hKey⟩
    rw [Work.toResult, ← hSnippet]
    exact hMem
  · rintro ⟨hMem, hKey⟩
    exact ⟨⟨work.toResult, hMem, rfl⟩, hKey⟩

theorem Distinct.snippet_eq (h : Distinct snippet results) {work : Work}
    (hWork : work ∈ worksOf (Snippet.key snippet) results) : work.snippet = snippet := by
  obtain ⟨hMem, hKey⟩ := mem_worksOf.mp hWork
  obtain ⟨hQuery, hId⟩ := makeMapKey_inj hKey
  exact h work.toResult hMem work.snippet rfl hQuery hId

theorem Distinct.mono {more : List CsdResult} (h : Distinct snippet more) (hle : results <+: more) :
    Distinct snippet results :=
  fun result hMem => h result (hle.subset hMem)

theorem worksOf_mono {more : List CsdResult} (key : String) (hle : results <+: more) :
    ((worksOf key results : List Work) : Multiset Work) ≤ worksOf key more := by
  obtain ⟨rest, rfl⟩ := hle
  rw [worksOf, worksOf, List.filterMap_append, List.filter_append]
  exact Multiset.coe_le.mpr (List.sublist_append_left _ _).subperm

theorem Admissible.mono {u : KValue} {more : List CsdResult} (h : Admissible u snippet more)
    (hle : results <+: more) : Admissible u snippet results :=
  ⟨h.distinct.mono hle, h.noEarly.mono (worksOf_mono _ hle)⟩

end Works

section Step
variable {n : Nat} {u : KValue} {σ σ' : State n} {w : Fin n} {snippet : Snippet}

theorem enqueued_of_transition (h : Transition u σ w σ') : σ'.enqueued = σ.enqueued := by
  cases h <;> rfl

theorem enqueued_of_step {action : Action n} (h : step u σ action = some σ') : σ.enqueued <+: σ'.enqueued := by
  cases action with
  | enqueue result =>
    cases h
    exact List.prefix_append _ _
  | work w => rw [enqueued_of_transition (transition_of_workerStep h)]

theorem buffer_of_buffered {quota : ℤ} {key : String} (hInv : Quota.Inv (spec u) quota (view u key σ))
    (hStage : (stageOf u key (σ.pc w)).Buffered) : ∃ buffer, σ.idBufferMap w key = some buffer :=
  (buffer_isSome_view u key w).mp (hInv.buffered hStage)

theorem named_setBuffer (hNamed : Named snippet σ) {key : String} {buffer : Option CsdResult}
    (hNew : key = Snippet.key snippet → ∀ b ∈ buffer, b.snippet = some snippet) :
    ∀ v b, setBuffer σ w key buffer v (Snippet.key snippet) = some b → b.snippet = some snippet := by
  intro v b h
  rw [setBuffer_eq] at h
  split at h
  · rename_i hEq
    exact hNew hEq.2.symm b h
  · exact hNamed.buffers v b h

theorem named_storeBuffer (hNamed : Named snippet σ) {key : String} {buffer : CsdResult}
    (hNew : key = Snippet.key snippet → buffer.snippet = some snippet) :
    ∀ v b, setBuffer σ w key (some buffer) v (Snippet.key snippet) = some b → b.snippet = some snippet := by
  refine named_setBuffer hNamed fun hKey b hb => ?_
  obtain rfl := Option.mem_some_iff.mp hb
  exact hNew hKey

theorem named_message (hNamed : Named snippet σ) {key : String} {buffer : CsdResult}
    (hNew : key = Snippet.key snippet → buffer.snippet = some snippet) :
    ∀ m ∈ σ.returned ++ [(key, buffer)], m.1 = Snippet.key snippet → m.2.snippet = some snippet :=
  List.forall_mem_append.mpr ⟨hNamed.messages, List.forall_mem_singleton.mpr hNew⟩

theorem bufferAt_named {quota : ℤ} (key : String) (hNamed : Named snippet σ)
    (hInv : Quota.Inv (spec u) quota (view u (Snippet.key snippet) σ))
    (hStage : key = Snippet.key snippet → (stageOf u key (σ.pc w)).Buffered) :
    key = Snippet.key snippet → (bufferAt σ w key).snippet = some snippet := by
  rintro rfl
  obtain ⟨buffer, hBuffer⟩ := buffer_of_buffered hInv (hStage rfl)
  rw [bufferAt, hBuffer]
  exact hNamed.buffers w buffer hBuffer

theorem named_transition {quota : ℤ} (hLedger : Quota.Ledger (spec u) (view u (Snippet.key snippet) σ))
    (hInv : Quota.Inv (spec u) quota (view u (Snippet.key snippet) σ)) (hDistinct : Distinct snippet σ.enqueued)
    (hNamed : Named snippet σ) (h : Transition u σ w σ') : Named snippet σ' := by
  cases h with
  | start hPc => exact ⟨hNamed.buffers, hNamed.messages⟩
  | pop work queue hPc hQueue => exact ⟨hNamed.buffers, hNamed.messages⟩
  | insert work hPc hMu => exact ⟨hNamed.buffers, hNamed.messages⟩
  | check work hPc =>
    refine ⟨named_storeBuffer hNamed fun hKey => ?_, hNamed.messages⟩
    cases hBuffer : σ.idBufferMap w work.key with
    | none =>
      have hArrived : work ∈ (view u (Snippet.key snippet) σ).arrived := by
        refine hLedger.mem_arrived (w := w) ?_
        change (stageOf u (Snippet.key snippet) (σ.pc w)).hand = {work}
        rw [← hKey, hPc, stageOf_counted]
        rfl
      exact congrArg some (hDistinct.snippet_eq (Multiset.mem_coe.mp hArrived))
    | some buffer => exact hNamed.buffers w buffer (hKey ▸ hBuffer)
  | flush work i row hPc hi hRow =>
    have hBuffer := bufferAt_named (w := w) work.key hNamed hInv
      fun _ => by rw [hPc, stageOf_merging]; trivial
    exact ⟨named_storeBuffer hNamed hBuffer, named_message hNamed hBuffer⟩
  | keep work i row hPc hi hRow =>
    have hBuffer := bufferAt_named (w := w) work.key hNamed hInv
      fun _ => by rw [hPc, stageOf_merging]; trivial
    exact ⟨named_storeBuffer hNamed hBuffer, hNamed.messages⟩
  | rowsEnd work i hPc hi => exact ⟨hNamed.buffers, hNamed.messages⟩
  | write work i row hPc =>
    have hBuffer := bufferAt_named (w := w) work.key hNamed hInv
      fun _ => by rw [hPc, stageOf_writing]; trivial
    exact ⟨named_storeBuffer hNamed hBuffer, hNamed.messages⟩
  | add work hPc =>
    have hBuffer := bufferAt_named (w := w) work.key hNamed hInv
      fun _ => by rw [hPc, stageOf_adding]; trivial
    exact ⟨named_storeBuffer hNamed hBuffer, hNamed.messages⟩
  | skip work hPc hMu hCount => exact ⟨hNamed.buffers, hNamed.messages⟩
  | down work count hPc hMu hCount hMore => exact ⟨hNamed.buffers, hNamed.messages⟩
  | zero work count hPc hMu hCount hZero => exact ⟨hNamed.buffers, hNamed.messages⟩
  | pass key v todo flag hPc hBuffer => exact ⟨hNamed.buffers, hNamed.messages⟩
  | ship key v todo flag buffer hPc hBuffer =>
    refine ⟨named_setBuffer hNamed fun _ b hb => by simp at hb, named_message hNamed fun hKey => ?_⟩
    exact hNamed.buffers v buffer (hKey ▸ hBuffer)
  | erase key flag hPc => exact ⟨hNamed.buffers, hNamed.messages⟩

end Step

section Run
variable {n : Nat} {u : KValue} {σ σ' : State n} {snippet : Snippet}

structure Tracked (u : KValue) (snippet : Snippet) (σ : State n) : Prop where
  good : Good u σ
  ledger : ∀ key, Quota.Ledger (spec u) (view u key σ)
  inv : Admissible u snippet σ.enqueued →
    Quota.Inv (spec u) snippet.resultInfo.csdBlockCount (view u (Snippet.key snippet) σ) ∧ Named snippet σ

theorem tracked_initial (u : KValue) (snippet : Snippet) : Tracked u snippet (initial n) where
  good := good_initial u
  ledger key := Quota.ledger_initial (spec u)
  inv _ := by
    refine ⟨Quota.inv_initial (spec u) _, fun w buffer h => ?_, fun m hm => ?_⟩
    · cases h
    · cases hm

theorem quota_of_distinct {results : List CsdResult} (h : Distinct snippet results) :
    ∀ work ∈ ((worksOf (Snippet.key snippet) results : List Work) : Multiset Work),
      (spec u).quota work = snippet.resultInfo.csdBlockCount := by
  intro work hWork
  change work.snippet.resultInfo.csdBlockCount = _
  rw [h.snippet_eq (Multiset.mem_coe.mp hWork)]

theorem tracked_step {action : Action n} (hTracked : Tracked u snippet σ) (h : step u σ action = some σ') :
    Tracked u snippet σ' where
  good := good_step hTracked.good h
  ledger key := by
    rcases simulate_step key hTracked.good h with hSame | hStep
    · rw [hSame]
      exact hTracked.ledger key
    · exact Quota.ledger_step (hTracked.ledger key) hStep
  inv hAdmissible := by
    have hBefore := hAdmissible.mono (enqueued_of_step h)
    obtain ⟨hInv, hNamed⟩ := hTracked.inv hBefore
    constructor
    · rcases simulate_step (Snippet.key snippet) hTracked.good h with hSame | hStep
      · rw [hSame]
        exact hInv
      · exact Quota.inv_step (hTracked.ledger _) hInv hStep (quota_of_distinct hAdmissible.distinct)
          hAdmissible.noEarly
    · cases action with
      | enqueue result =>
        cases h
        exact ⟨hNamed.buffers, hNamed.messages⟩
      | work w =>
        exact named_transition (hTracked.ledger _) hInv hBefore.distinct hNamed (transition_of_workerStep h)

theorem tracked_run {actions : List (Action n)} (h : run (step u) (initial n) actions = some σ) :
    Tracked u snippet σ :=
  run_preserves (fun _ _ _ hTracked hStep => tracked_step hTracked hStep) (tracked_initial u snippet) h

end Run

end CsdWorker.Projection
