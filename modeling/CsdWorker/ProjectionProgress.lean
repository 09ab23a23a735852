import CsdWorker.ProjectionCorrect

/-! # The projection comes to an end

A worker of the projection waits for two things only, the queue and the lock. The lock is held by the worker that
releases buffers, and that worker waits for nothing. So a projection in which nobody can move has nothing left to do,
and as every step uses up something, it gets there.
-/

namespace CsdWorker.Projection

open Memory Run Quota

set_option autoImplicit false

variable {n : Nat} {u : KValue} {σ σ' : State n}

def Pc.Releasing : Pc n → Prop
  | .releasing _ _ _ => True
  | _ => False

theorem Pc.Releasing.eq_releasing {pc : Pc n} (h : pc.Releasing) : ∃ key todo flag, pc = .releasing key todo flag := by
  cases pc with
  | releasing key todo flag => exact ⟨key, todo, flag, rfl⟩
  | _ => exact h.elim

/-- The work in the hands of a worker is one of the results, and the loop over the buffers has at most `n` turns. -/
def Pc.From (results : List CsdResult) : Pc n → Prop
  | .notStarted | .waiting => True
  | .popped work | .counted work | .merging work _ | .writing work _ _ | .adding work | .counting work =>
    work.toResult ∈ results
  | .releasing key todo _ => todo.length ≤ n ∧ ∃ work : Work, work.toResult ∈ results ∧ work.key = key

structure Orderly (σ : State n) : Prop where
  queue : ∀ result ∈ σ.queue, result ∈ σ.enqueued
  hands : ∀ w, (σ.pc w).From σ.enqueued
  holder : ∀ w, σ.mu = some w → (σ.pc w).Releasing
  workers : σ.mergeBufferList.Nodup
  started : ∀ w ∈ σ.mergeBufferList, σ.pc w ≠ .notStarted

theorem orderly_initial : Orderly (initial n) where
  queue := fun _ h => nomatch h
  hands := fun _ => trivial
  holder := fun _ h => nomatch h
  workers := List.nodup_nil
  started := fun _ h => nomatch h

theorem Pc.From.mono {results more : List CsdResult} {pc : Pc n} (h : pc.From results) (hle : results ⊆ more) :
    pc.From more := by
  cases pc with
  | notStarted => trivial
  | waiting => trivial
  | releasing key todo flag =>
    obtain ⟨hTodo, work, hWork, hKey⟩ := h
    exact ⟨hTodo, work, hle hWork, hKey⟩
  | popped work => exact hle h
  | counted work => exact hle h
  | merging work i => exact hle h
  | writing work i row => exact hle h
  | adding work => exact hle h
  | counting work => exact hle h

section Step
variable {w : Fin n} {pc : Pc n}

theorem setPc_from (h : Orderly σ) (hPc : pc.From σ.enqueued) : ∀ v, (setPc σ w pc v).From σ.enqueued := by
  intro v
  obtain rfl | hv := eq_or_ne v w
  · rwa [setPc, Function.update_self]
  · rw [setPc, Function.update_of_ne hv]
    exact h.hands v

theorem setPc_holder (h : Orderly σ) (hPc : (σ.pc w).Releasing → pc.Releasing) :
    ∀ v, σ.mu = some v → (setPc σ w pc v).Releasing := by
  intro v hv
  obtain rfl | hne := eq_or_ne v w
  · rw [setPc, Function.update_self]
    exact hPc (h.holder v hv)
  · rw [setPc, Function.update_of_ne hne]
    exact h.holder v hv

theorem setPc_ne_notStarted (h : Orderly σ) (hPc : pc ≠ .notStarted) :
    ∀ v ∈ σ.mergeBufferList, setPc σ w pc v ≠ .notStarted := by
  intro v hv
  obtain rfl | hne := eq_or_ne v w
  · rwa [setPc, Function.update_self]
  · rw [setPc, Function.update_of_ne hne]
    exact h.started v hv

/-- A step that changes the hands of one worker only. -/
theorem Orderly.advance (h : Orderly σ) (pc : Pc n) (hFrom : pc.From σ.enqueued)
    (hReleasing : (σ.pc w).Releasing → pc.Releasing) (hStarted : pc ≠ .notStarted) (hQueue : σ'.queue ⊆ σ.queue)
    (hPc : σ'.pc = setPc σ w pc) (hMu : σ'.mu = σ.mu) (hList : σ'.mergeBufferList = σ.mergeBufferList)
    (hEnqueued : σ'.enqueued = σ.enqueued) :
    Orderly σ' where
  queue := fun result hResult => hEnqueued ▸ h.queue result (hQueue hResult)
  hands := by
    rw [hPc, hEnqueued]
    exact setPc_from h hFrom
  holder := by
    rw [hPc, hMu]
    exact setPc_holder h hReleasing
  workers := hList ▸ h.workers
  started := by
    rw [hPc, hList]
    exact setPc_ne_notStarted h hStarted

theorem Orderly.length_le (h : Orderly σ) : σ.mergeBufferList.length ≤ n := by
  have hCard := List.Nodup.length_le_card h.workers
  rwa [Fintype.card_fin] at hCard

theorem orderly_transition (h : Orderly σ) (hStep : Transition u σ w σ') : Orderly σ' := by
  have hHand := h.hands w
  cases hStep with
  | start hPc =>
    have hNew : w ∉ σ.mergeBufferList := fun hw => h.started w hw hPc
    refine ⟨h.queue, setPc_from h trivial, setPc_holder h (by rw [hPc]; exact False.elim), ?_, fun v hv => ?_⟩
    · exact h.workers.append (List.nodup_singleton w) (List.disjoint_singleton.mpr hNew)
    · obtain hv | hv := List.mem_append.mp hv
      · exact setPc_ne_notStarted h (by simp) v hv
      · obtain rfl := List.mem_singleton.mp hv
        intro hEq
        cases (Function.update_self _ _ _).symm.trans hEq
  | pop work queue hPc hQueue =>
    have hMem : work.toResult ∈ σ.queue := hQueue ▸ List.mem_cons_self
    refine h.advance (.popped work) (h.queue _ hMem) (by rw [hPc]; exact False.elim) (by simp) ?_ rfl rfl rfl rfl
    rw [hQueue]
    exact List.subset_cons_self _ _
  | insert work hPc hMu =>
    rw [hPc] at hHand
    exact h.advance (.counted work) hHand (by rw [hPc]; exact False.elim) (by simp) (fun _ hr => hr) rfl rfl rfl rfl
  | check work hPc =>
    rw [hPc] at hHand
    exact h.advance (.merging work 0) hHand (by rw [hPc]; exact False.elim) (by simp) (fun _ hr => hr) rfl rfl rfl rfl
  | flush work i row hPc hi hRow =>
    rw [hPc] at hHand
    exact h.advance (.writing work i row) hHand (by rw [hPc]; exact False.elim) (by simp)
      (fun _ hr => hr) rfl rfl rfl rfl
  | keep work i row hPc hi hRow =>
    rw [hPc] at hHand
    exact h.advance (.writing work i row) hHand (by rw [hPc]; exact False.elim) (by simp)
      (fun _ hr => hr) rfl rfl rfl rfl
  | rowsEnd work i hPc hi =>
    rw [hPc] at hHand
    exact h.advance (.adding work) hHand (by rw [hPc]; exact False.elim) (by simp) (fun _ hr => hr) rfl rfl rfl rfl
  | write work i row hPc =>
    rw [hPc] at hHand
    exact h.advance (.merging work (i + 1)) hHand (by rw [hPc]; exact False.elim) (by simp)
      (fun _ hr => hr) rfl rfl rfl rfl
  | add work hPc =>
    rw [hPc] at hHand
    exact h.advance (.counting work) hHand (by rw [hPc]; exact False.elim) (by simp) (fun _ hr => hr) rfl rfl rfl rfl
  | skip work hPc hMu hCount =>
    exact h.advance .waiting trivial (by rw [hPc]; exact False.elim) (by simp) (fun _ hr => hr) rfl rfl rfl rfl
  | down work count hPc hMu hCount hMore =>
    exact h.advance .waiting trivial (by rw [hPc]; exact False.elim) (by simp) (fun _ hr => hr) rfl rfl rfl rfl
  | zero work count hPc hMu hCount hZero =>
    rw [hPc] at hHand
    refine ⟨h.queue, setPc_from h ⟨h.length_le, work, hHand, rfl⟩, fun v hv => ?_, h.workers,
      setPc_ne_notStarted h (by simp)⟩
    obtain rfl : w = v := Option.some_inj.mp hv
    change (setPc σ w _ w).Releasing
    rw [setPc, Function.update_self]
    trivial
  | pass key v todo flag hPc hBuffer =>
    rw [hPc] at hHand
    obtain ⟨hTodo, hWork⟩ := hHand
    exact h.advance (.releasing key todo flag) ⟨Nat.le_of_succ_le hTodo, hWork⟩ (fun _ => trivial) (by simp)
      (fun _ hr => hr) rfl rfl rfl rfl
  | ship key v todo flag buffer hPc hBuffer =>
    rw [hPc] at hHand
    obtain ⟨hTodo, hWork⟩ := hHand
    exact h.advance (.releasing key todo false) ⟨Nat.le_of_succ_le hTodo, hWork⟩ (fun _ => trivial) (by simp)
      (fun _ hr => hr) rfl rfl rfl rfl
  | erase key flag hPc =>
    refine ⟨h.queue, setPc_from h trivial, fun v hv => ?_, h.workers, setPc_ne_notStarted h (by simp)⟩
    cases hv

theorem orderly_enqueue (h : Orderly σ) (result : CsdResult) : Orderly (enqueueProjection σ result) where
  queue := List.forall_mem_append.mpr ⟨fun r hr => List.mem_append_left _ (h.queue r hr),
    fun _ hr => List.mem_append_right _ hr⟩
  hands := fun v => (h.hands v).mono (List.subset_append_left _ _)
  holder := h.holder
  workers := h.workers
  started := h.started

theorem orderly_step {action : Action n} (h : Orderly σ) (hStep : step u σ action = some σ') : Orderly σ' := by
  cases action with
  | enqueue result =>
    obtain rfl := Option.some_inj.mp hStep
    exact orderly_enqueue h result
  | work w => exact orderly_transition h (transition_of_workerStep hStep)

theorem orderly_run {actions : List (Action n)} (h : run (step u) (initial n) actions = some σ) : Orderly σ :=
  run_preserves (fun _ _ _ hs hStep => orderly_step hs hStep) orderly_initial h

end Step

section Cost

/-- Two steps for each row, one for each buffer that is released, and seven around them. -/
def resultCost (n : Nat) (result : CsdResult) : Nat := 2 * result.data.rowCount + n + 7

def Pc.cost : Pc n → Nat
  | .notStarted => 1
  | .waiting => 0
  | .popped work => 2 * work.data.rowCount + n + 6
  | .counted work => 2 * work.data.rowCount + n + 5
  | .merging work i => 2 * (work.data.rowCount - i) + n + 4
  | .writing work i _ => 2 * (work.data.rowCount - i) + n + 3
  | .adding _ => n + 3
  | .counting _ => n + 2
  | .releasing _ todo _ => todo.length + 1

def stepsLeft (σ : State n) : Nat := (σ.queue.map (resultCost n)).sum + ∑ w, (σ.pc w).cost

theorem stepsLeft_initial : stepsLeft (initial n) = n := by
  simp [stepsLeft, initial, Pc.cost]

theorem stepsLeft_enqueue (σ : State n) (result : CsdResult) :
    stepsLeft (enqueueProjection σ result) = stepsLeft σ + resultCost n result := by
  simp only [stepsLeft, enqueueProjection, List.map_append, List.sum_append, List.map_singleton, List.sum_singleton]
  omega

theorem stepsLeft_lt {w : Fin n} (pc : Pc n) (hQueue : σ'.queue = σ.queue) (hPc : σ'.pc = setPc σ w pc)
    (hCost : pc.cost < (σ.pc w).cost) : stepsLeft σ' < stepsLeft σ := by
  have hSum := sum_update_add Pc.cost σ.pc w pc
  rw [stepsLeft, stepsLeft, hQueue, hPc, setPc]
  omega

theorem stepsLeft_transition {w : Fin n} (hGood : Good u σ) (hOrderly : Orderly σ) (hStep : Transition u σ w σ') :
    stepsLeft σ' < stepsLeft σ := by
  cases hStep with
  | start hPc => exact stepsLeft_lt .waiting rfl rfl (by rw [hPc]; exact Nat.one_pos)
  | pop work queue hPc hQueue =>
    have hSum := sum_update_add Pc.cost σ.pc w (.popped work)
    rw [hPc, Pc.cost, Pc.cost] at hSum
    simp only [stepsLeft, popWork, setPc, hQueue, List.map_cons, List.sum_cons, resultCost, Work.toResult]
    omega
  | insert work hPc hMu => exact stepsLeft_lt (.counted work) rfl rfl (by rw [hPc]; exact Nat.lt_succ_self _)
  | check work hPc => exact stepsLeft_lt (.merging work 0) rfl rfl (by rw [hPc]; exact Nat.lt_succ_self _)
  | flush work i row hPc hi hRow =>
    exact stepsLeft_lt (.writing work i row) rfl rfl (by rw [hPc]; exact Nat.lt_succ_self _)
  | keep work i row hPc hi hRow =>
    exact stepsLeft_lt (.writing work i row) rfl rfl (by rw [hPc]; exact Nat.lt_succ_self _)
  | rowsEnd work i hPc hi =>
    refine stepsLeft_lt (.adding work) rfl rfl ?_
    rw [hPc]
    simp only [Pc.cost]
    omega
  | write work i row hPc =>
    have hi := (hGood.writing w work i row hPc).1
    refine stepsLeft_lt (.merging work (i + 1)) rfl rfl ?_
    rw [hPc]
    simp only [Pc.cost]
    omega
  | add work hPc => exact stepsLeft_lt (.counting work) rfl rfl (by rw [hPc]; exact Nat.lt_succ_self _)
  | skip work hPc hMu hCount => exact stepsLeft_lt .waiting rfl rfl (by rw [hPc]; exact Nat.succ_pos _)
  | down work count hPc hMu hCount hMore =>
    exact stepsLeft_lt .waiting rfl rfl (by rw [hPc]; exact Nat.succ_pos _)
  | zero work count hPc hMu hCount hZero =>
    refine stepsLeft_lt (.releasing work.key σ.mergeBufferList true) rfl rfl ?_
    rw [hPc]
    exact Nat.succ_lt_succ (Nat.lt_succ_of_le hOrderly.length_le)
  | pass key v todo flag hPc hBuffer =>
    exact stepsLeft_lt (.releasing key todo flag) rfl rfl (by rw [hPc]; exact Nat.lt_succ_self _)
  | ship key v todo flag buffer hPc hBuffer =>
    exact stepsLeft_lt (.releasing key todo false) rfl rfl (by rw [hPc]; exact Nat.lt_succ_self _)
  | erase key flag hPc => exact stepsLeft_lt .waiting rfl rfl (by rw [hPc]; exact Nat.succ_pos _)

end Cost

section Stuck

/-- Every result has a snippet whose projection can be evaluated on its rows, and no part of the results is taken for
all of them. -/
def Processable (u : KValue) (results : List CsdResult) : Prop :=
  ∀ result ∈ results, ∃ snippet, result.snippet = some snippet ∧
    Projects u ⟨snippet, result.data⟩ result.data.rowCount ∧ Admissible u snippet results

structure Idle (σ : State n) : Prop where
  queue : σ.queue = []
  workers : ∀ w, σ.pc w = .waiting

theorem Idle.settled (h : Idle σ) (snippet : Snippet) : Settled snippet σ := by
  refine ⟨?_, fun w => ?_⟩
  · rw [h.queue]
    rfl
  · rw [h.workers w]
    exact fun hKey => nomatch hKey

theorem Processable.of_work {results : List CsdResult} (h : Processable u results) {work : Work}
    (hWork : work.toResult ∈ results) : Projects u work work.data.rowCount ∧ Admissible u work.snippet results := by
  obtain ⟨snippet, hSnippet, hProjects, hAdmissible⟩ := h _ hWork
  obtain rfl := Option.some_inj.mp hSnippet
  exact ⟨hProjects, hAdmissible⟩

/-- The worker that releases buffers is not held up. -/
theorem exists_release {w : Fin n} (hTracked : ∀ snippet, Tracked u snippet σ) (hOrderly : Orderly σ)
    (hResults : Processable u σ.enqueued) (hPc : (σ.pc w).Releasing) : ∃ σ', workerStep u σ w = some σ' := by
  have hHand := hOrderly.hands w
  obtain ⟨key, todo, flag, hw⟩ := hPc.eq_releasing
  rw [hw] at hHand
  obtain ⟨-, work, hWork, hKey⟩ := hHand
  unfold workerStep
  rw [hw]
  cases todo with
  | nil => exact ⟨_, rfl⟩
  | cons v todo =>
    simp only [releaseBuffer]
    cases hBuffer : σ.idBufferMap v key with
    | none => exact ⟨_, rfl⟩
    | some buffer =>
      obtain ⟨-, hNamed⟩ := (hTracked work.snippet).inv (hResults.of_work hWork).2
      have hSnippet := hNamed.buffers v buffer (by rw [← hBuffer, ← hKey]; rfl)
      simp [hSnippet]

theorem exists_workerStep {w : Fin n} (hOrderly : Orderly σ) (hResults : Processable u σ.enqueued) (hMu : σ.mu = none)
    (hBusy : σ.pc w = .waiting → σ.queue ≠ []) (hPc : ¬(σ.pc w).Releasing) : ∃ σ', workerStep u σ w = some σ' := by
  have hHand := hOrderly.hands w
  unfold workerStep
  cases hw : σ.pc w with
  | notStarted => exact ⟨_, rfl⟩
  | waiting =>
    obtain ⟨result, queue, hQueue⟩ := List.exists_cons_of_ne_nil (hBusy hw)
    obtain ⟨snippet, hSnippet, -⟩ := hResults result (hOrderly.queue _ (hQueue ▸ List.mem_cons_self))
    simp [waitAndPop, hQueue, hSnippet]
  | popped work => exact ⟨_, if_pos hMu⟩
  | counted work => exact ⟨_, rfl⟩
  | merging work i =>
    rw [hw] at hHand
    simp only [projectNext]
    split
    · obtain ⟨row, hRow⟩ := Option.isSome_iff_exists.mp ((hResults.of_work hHand).1 i ‹_›)
      rw [hRow, Option.bind_eq_bind, Option.bind_some]
      split <;> exact ⟨_, rfl⟩
    · exact ⟨_, rfl⟩
  | writing work i row => exact ⟨_, rfl⟩
  | adding work => exact ⟨_, rfl⟩
  | counting work =>
    simp only [blockCountDown, hMu, if_true]
    split
    · exact ⟨_, rfl⟩
    · split <;> exact ⟨_, rfl⟩
  | releasing key todo flag =>
    rw [hw] at hPc
    exact absurd trivial hPc

theorem idle_of_stuck (hn : 0 < n) (hReachable : ∃ actions, run (step u) (initial n) actions = some σ)
    (hResults : Processable u σ.enqueued) (hStuck : ∀ w, workerStep u σ w = none) : Idle σ := by
  obtain ⟨actions, hRun⟩ := hReachable
  have hOrderly := orderly_run hRun
  have hStep : ∀ w, ¬∃ σ', workerStep u σ w = some σ' := by
    rintro w ⟨σ', h⟩
    cases (hStuck w).symm.trans h
  -- whoever held the lock would release buffers
  have hMu : σ.mu = none := by
    cases hLock : σ.mu with
    | none => rfl
    | some w =>
      exact absurd (exists_release (fun _ => tracked_run hRun) hOrderly hResults (hOrderly.holder w hLock)) (hStep w)
  have hWaiting : ∀ w, σ.pc w = .waiting ∧ σ.queue = [] := by
    intro w
    by_contra hBusy
    refine hStep w (exists_workerStep hOrderly hResults hMu (fun hw hQueue => hBusy ⟨hw, hQueue⟩) fun hReleasing => ?_)
    exact hStep w (exists_release (fun _ => tracked_run hRun) hOrderly hResults hReleasing)
  exact ⟨(hWaiting ⟨0, hn⟩).2, fun w => (hWaiting w).1⟩

end Stuck

end CsdWorker.Projection
